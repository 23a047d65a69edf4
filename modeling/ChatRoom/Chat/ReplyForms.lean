import ChatRoom.Chat.LoginPayload
import ChatRoom.Chat.ReplyText

/-!
# Which replies are well formed

A reply is well formed when the text that a client decodes is a JSON object without
repeated keys that says what the server has stored. The lists come from the JSON
library, which prints a list without elements as `null`; a name is written between
quotes as it is; and the reply to a chat message has one key twice. `send` passes the
length of a text through an `int32_t`.
-/

namespace ChatRoom.Chat

open ChatRoom.Core ChatRoom.Core.JsonText Net ChatServer

/-! ## Texts of any length -/

/-- What `send` leaves of a text. -/
def cut (data : Bytes) : Bytes := data.take (data.length % 2 ^ 32)

/-- `send` does not throw. -/
def Sendable (data : Bytes) : Prop := packageSize (cut data) < 2 ^ 31

instance (data : Bytes) : Decidable (Sendable data) := inferInstanceAs (Decidable (_ < _))

private theorem cut_of_lt {data : Bytes} (h : data.length < 2 ^ 32) : cut data = data := by
  rw [cut, Nat.mod_eq_of_lt h, List.take_length]

private theorem length_cut (data : Bytes) : (cut data).length = data.length % 2 ^ 32 := by
  rw [cut, List.length_take]
  exact Nat.min_eq_left (Nat.mod_le _ _)

/-- A text of that size is sent whole. -/
theorem sendable_of_packageSize {data : Bytes} (h : packageSize data < 2 ^ 31) :
    Sendable data ∧ cut data = data := by
  have hlength : data.length < 2 ^ 32 := by
    unfold packageSize at h
    omega
  rw [Sendable, cut_of_lt hlength]
  exact ⟨h, rfl⟩

private theorem ofNat_length_cut (data : Bytes) :
    BitVec.ofNat 32 (cut data).length = BitVec.ofNat 32 data.length := by
  apply BitVec.eq_of_toNat_eq
  rw [length_cut, BitVec.toNat_ofNat, BitVec.toNat_ofNat, Nat.mod_mod]

/-- A length that is negative as an `int32_t` is too long for any string. -/
theorem tooLong_of_le {n : Nat} (hlow : 2 ^ 31 ≤ n) (hhigh : n < 2 ^ 32) :
    stringMaxSize < bodySize (BitVec.ofNat 32 n) := by
  have hneg : (BitVec.ofNat 32 n).toInt < 0 := by
    rw [BitVec.toInt_eq_toNat_cond, BitVec.toNat_ofNat, Nat.mod_eq_of_lt hhigh]
    omega
  rcases frameSize_cases (BitVec.ofNat 32 n) with ⟨hpos, _⟩ | ⟨_, hbig⟩
  · omega
  · exact hbig

private theorem sendPackage_none (host : Endian) {p : Bytes} (hlow : 2 ^ 31 ≤ p.length)
    (hhigh : p.length < 2 ^ 32) : sendPackage host p = none := by
  rw [sendPackage]
  exact if_pos (tooLong_of_le hlow hhigh)

/-- Only what is left of the text is written. -/
theorem writePackage_cut (stack : Fin 6 → UInt8) (m : Packet)
    (h : (cut m.data).length < 2 ^ 31) :
    writePackage stack m.cmd m.seq m.data ((BitVec.ofNat 32 m.data.length).signExtend 64) =
      some (package stack { m with data := cut m.data }) := by
  have hlen : ((BitVec.ofNat 32 m.data.length).signExtend 64).toNat = (cut m.data).length := by
    rw [← ofNat_length_cut]
    exact bodySize_ofNat h
  rw [← writePackage_eq stack { m with data := cut m.data } h]
  dsimp only
  rw [ofNat_length_cut]
  simp only [writePackage, BinaryStreamWriter.writeCString, hlen, List.take_length]
  rw [length_cut]
  rfl

/-- A text that is too long is cut and then sent. -/
theorem send_cut (host : Endian) (stack : Fin 6 → UInt8) (m : Packet) (h : Sendable m.data) :
    send host stack m = send host stack { m with data := cut m.data } := by
  have hlength : (cut m.data).length < 2 ^ 31 := by
    unfold Sendable packageSize at h
    omega
  rw [send, writePackage_cut stack m hlength, send_eq host stack { m with data := cut m.data } h,
    Option.bind_some, sendPackage_eq host]
  rw [length_package stack _ (by dsimp only; omega)]
  exact h

/-- Of a text that cannot be sent no frame is built. -/
theorem send_none (host : Endian) (stack : Fin 6 → UInt8) (m : Packet) (h : ¬ Sendable m.data) :
    send host stack m = none := by
  have hmod : (cut m.data).length < 2 ^ 32 := by
    rw [length_cut]
    exact Nat.mod_lt _ (by decide)
  by_cases hlength : (cut m.data).length < 2 ^ 31
  · have hsize := length_package stack { m with data := cut m.data } (by dsimp only; omega)
    have hvarint : (write7BitEncoded (BitVec.ofNat 64 (cut m.data).length)).length ≤ 5 := by
      rw [write7BitEncoded_length (by omega)]
      exact Varint.length_encode_le (by decide) (by omega)
    rw [send, writePackage_cut stack m hlength, Option.bind_some]
    rw [Sendable, Nat.not_lt] at h
    apply sendPackage_none
    · rw [hsize]
      exact h
    · rw [hsize, packageSize]
      dsimp only
      omega
  · have hbig : stringMaxSize < ((BitVec.ofNat 32 m.data.length).signExtend 64).toNat := by
      rw [← ofNat_length_cut]
      exact tooLong_of_le (Nat.le_of_not_lt hlength) hmod
    rw [send, writePackage, BinaryStreamWriter.writeCString, if_pos hbig]
    rfl

/-- A reply that is sent decodes to what `send` has left of it. -/
theorem sendTo_sendable (env : Env) (srv : ChatServer) (id : Nat) {p : Packet}
    (h : Sendable p.data) :
    Delivers srv (srv.sendTo env id p).1 [(id, { p with data := cut p.data })] := by
  obtain ⟨frame, hdecode, hsend⟩ := sendTo_fits env srv id (p := { p with data := cut p.data }) h
  have hsame : srv.sendTo env id p = srv.sendTo env id { p with data := cut p.data } := by
    rw [sendTo, sendTo, send_cut env.host (env.stack srv.writers) p h]
  rw [hsame, hsend]
  refine ⟨[(id, frame)], rfl, ?_⟩
  rw [List.map_singleton, List.map_singleton, hdecode]

private theorem sendTo_not_sendable (env : Env) (srv : ChatServer) (id : Nat) {p : Packet}
    (h : ¬ Sendable p.data) : (srv.sendTo env id p).1 = srv := by
  rw [sendTo, send_none env.host (env.stack srv.writers) p h]

/-! ## What a reply has to say -/

/-- No number of the value is infinite or `NaN`: its exponent has a zero bit. -/
inductive Json.Finite : Json → Prop where
  | null : Json.Finite .null
  | boolean (b : Bool) : Json.Finite (.boolean b)
  | numberInteger (n : Int) : Json.Finite (.numberInteger n)
  | numberFloat {bits : BitVec 64} (h : bits.toNat / 2 ^ 52 % 2 ^ 11 ≠ 2 ^ 11 - 1) :
      Json.Finite (.numberFloat bits)
  | string (s : Bytes) : Json.Finite (.string s)
  | array {elements : List Json} (h : ∀ j ∈ elements, Json.Finite j) :
      Json.Finite (.array elements)
  | object {members : List (Bytes × Json)} (h : ∀ m ∈ members, Json.Finite m.2) :
      Json.Finite (.object members)

/-- The integer that a number without fraction and exponent spells. -/
def integerOf : Bytes → Option Int
  | [] => none
  | c :: rest =>
    if c = 45 then if rest.all Decimal.isDigit then some (-Decimal.value rest) else none
    else if (c :: rest).all Decimal.isDigit then some (Decimal.value (c :: rest)) else none

private theorem all_isDigit_digits (n : Nat) : (Decimal.digits n).all Decimal.isDigit = true :=
  List.all_eq_true.mpr Decimal.isDigit_of_mem_digits

/-- The digits of an integer spell that integer. -/
theorem integerOf_encode (n : Int) : integerOf (Decimal.encode n) = some n := by
  cases n with
  | ofNat n =>
    have hall := all_isDigit_digits n
    have hvalue := Decimal.value_digits n
    rw [Decimal.encode]
    cases hdigits : Decimal.digits n with
    | nil => exact absurd hdigits (Decimal.digits_ne_nil n)
    | cons c rest =>
      rw [hdigits] at hall hvalue
      have hsign : c ≠ 45 := by
        rintro rfl
        exact absurd (List.all_eq_true.mp hall 45 (List.mem_cons_self ..)) (by decide)
      rw [integerOf, if_neg hsign, if_pos hall, hvalue]
      rfl
  | negSucc n =>
    rw [Decimal.encode, integerOf, if_pos rfl, if_pos (all_isDigit_digits _), Decimal.value_digits]
    rfl

/-- The tree is a text of the value. `float` is how the library reads a floating-point number. -/
inductive Spells (float : Bytes → Option (BitVec 64)) : Tree → Json → Prop where
  | null : Spells float .null .null
  | boolean (b : Bool) : Spells float (.boolean b) (.boolean b)
  | integer {lexeme : Bytes} {n : Int} (h : integerOf lexeme = some n) :
      Spells float (.number lexeme) (.numberInteger n)
  | float {lexeme : Bytes} {bits : BitVec 64} (h : float lexeme = some bits) :
      Spells float (.number lexeme) (.numberFloat bits)
  | string (s : Bytes) : Spells float (.string s) (.string s)
  | array {trees : List Tree} {values : List Json} (h : List.Forall₂ (Spells float) trees values) :
      Spells float (.array trees) (.array values)
  | object {trees : List (Bytes × Tree)} {values : List (Bytes × Json)}
      (hkeys : trees.map Prod.fst = values.map Prod.fst)
      (h : List.Forall₂ (Spells float) (trees.map Prod.snd) (values.map Prod.snd)) :
      Spells float (.object trees) (.object values)

/-- What is assumed of the JSON library: `dump` prints a text of the value, `parse` returns
finite numbers and no string longer than its text, and a null value is printed as `null`. -/
structure JsonLib.Faithful (json : JsonLib) (float : Bytes → Option (BitVec 64)) : Prop where
  dump : ∀ j t, j.Finite → json.dump j = some t →
    ∃ tree, JsonText.parse t = some tree ∧ Spells float tree j
  finite : ∀ t j, json.parse t = some j → j.Finite
  bounded : json.ParsesWithin
  null : json.dump .null = some (text "null")

/-- The object of a user in the list. -/
def userJson (u : User) : Json :=
  .object [(text "userid", .numberInteger u.userid), (text "username", .string u.username)]

/-- The types of packets that replies come in. -/
def replyTypes : List (BitVec 32) :=
  [msgTypeLogin, msgTypeGetuserlist, msgTypeGetMsgs, msgTypeChat]

section Replies

variable (float : Bytes → Option (BitVec 64)) (env : Env) (srv : ChatServer) (self : ChatSession)
  (p : Packet)

/-- The fields of a reply to the request `p` agree with what the server has stored: the name
of the account, one element for each user, one element for each message. -/
def FieldsRight (members : List (Bytes × Tree)) : Prop :=
  if p.cmd = msgTypeLogin then
    ∀ username password, loginRequest env.json p.data = some (username, password) →
      ∀ v, (text "username", v) ∈ members →
        v = .string (getUserInfoByUsername srv.users username).username
  else if self.isLogin then
    (p.cmd = msgTypeGetuserlist → ∃ elements, (text "userlistinfo", .array elements) ∈ members ∧
      List.Forall₂ (Spells float) elements (srv.users.map userJson)) ∧
    (p.cmd = msgTypeGetMsgs → ∃ elements, (text "msgs", .array elements) ∈ members ∧
      List.Forall₂ (fun e m => ∃ j, env.json.parse m = some j ∧ Spells float e j) elements
        srv.history)
  else True

/-- The data of a reply is an object without repeated keys, and its fields are right. -/
def WellFormed (data : Bytes) : Prop :=
  ∃ members, JsonText.parse data = some (.object members) ∧ (members.map Prod.fst).Nodup ∧
    FieldsRight float env srv self p members

/-- Every reply among the frames that a step has handed out is well formed. -/
def RepliesWellFormed (srv' : ChatServer) : Prop :=
  ∃ ps, Delivers srv srv' ps ∧
    ∀ q ∈ ps, q.2.cmd ∈ replyTypes → WellFormed float env srv self p q.2.data

/-- The text is not cut, if it is sent at all. -/
def Whole (data : Bytes) : Prop := Sendable data → data.length < 2 ^ 32

/-- When the replies to a request are well formed: an accepted name needs no escape; a list
has elements and its text is not cut; and nothing is when a chat message is accepted. -/
def RepliesCondition : Prop :=
  if p.cmd = msgTypeLogin then
    ∀ username password, loginRequest env.json p.data = some (username, password) →
      (getUserInfoByUsername srv.users username).password = password →
        Verbatim (getUserInfoByUsername srv.users username).username
  else if self.isLogin then
    (p.cmd = msgTypeGetuserlist ∧ srv.users ≠ [] ∧
      ∀ t, env.json.dump (.array (srv.users.map userJson)) = some t → Whole (userListReply t)) ∨
    (p.cmd = msgTypeGetMsgs ∧ srv.history ≠ [] ∧ env.redis srv.redisCalls = true ∧
      ∀ values t, srv.history.mapM env.json.parse = some values →
        env.json.dump (.array values) = some t → Whole (msgsReply t))
  else True

end Replies

section Lemmas

variable {float : Bytes → Option (BitVec 64)} {env : Env} {srv srv₀ srv' : ChatServer}
  {self : ChatSession} {p q : Packet} {id : Nat}

/-- A step that sends one reply. -/
theorem wellFormed_sendTo_iff (houtput : srv'.output = (srv₀.sendTo env id q).1.output)
    (hsame : srv₀.output = srv.output) (hcmd : q.cmd ∈ replyTypes) :
    RepliesWellFormed float env srv self p srv' ↔
      (Sendable q.data → WellFormed float env srv self p (cut q.data)) := by
  by_cases hsend : Sendable q.data
  · have hdelivers : Delivers srv srv' [(id, { q with data := cut q.data })] := by
      obtain ⟨frames, hframes, hdecode⟩ := sendTo_sendable env srv₀ id hsend
      exact ⟨frames, by rw [houtput, hframes, hsame], hdecode⟩
    constructor
    · rintro ⟨ps, hps, hwell⟩ _
      rw [hps.unique hdelivers] at hwell
      exact hwell _ (List.mem_singleton.mpr rfl) hcmd
    · intro hwell
      refine ⟨_, hdelivers, fun r hr _ => ?_⟩
      rw [List.mem_singleton.mp hr]
      exact hwell hsend
  · refine iff_of_true ⟨[], delivers_nil ?_, fun r hr => absurd hr List.not_mem_nil⟩
      fun h => absurd h hsend
    rw [houtput, sendTo_not_sendable env srv₀ id hsend, hsame]

/-- A reply that fits a frame. -/
theorem wellFormed_fits_iff (houtput : srv'.output = (srv₀.sendTo env id q).1.output)
    (hsame : srv₀.output = srv.output) (hcmd : q.cmd ∈ replyTypes)
    (hfits : packageSize q.data < 2 ^ 31) :
    RepliesWellFormed float env srv self p srv' ↔ WellFormed float env srv self p q.data := by
  obtain ⟨hsend, hcut⟩ := sendable_of_packageSize hfits
  rw [wellFormed_sendTo_iff houtput hsame hcmd, hcut]
  exact ⟨fun h => h hsend, fun h _ => h⟩

/-- A text that ends with its brace is no object once it is cut. -/
theorem parse_cut_brace {data front : Bytes} {tree : Tree} (hbrace : data = front ++ [125])
    (hparse : JsonText.parse data = some tree) (hlong : 2 ^ 32 ≤ data.length)
    (members : List (Bytes × Tree)) : JsonText.parse (cut data) ≠ some (.object members) := by
  have hmod : data.length % 2 ^ 32 < 2 ^ 32 := Nat.mod_lt _ (by decide)
  have hsplit : data = cut data ++ data.drop (data.length % 2 ^ 32) :=
    (List.take_append_drop _ _).symm
  rw [hsplit] at hparse
  apply parse_cut hparse
  -- The brace is among what is cut off, and no space.
  have hfront : data.length % 2 ^ 32 ≤ front.length := by
    rw [hbrace, List.length_append, List.length_singleton] at hlong ⊢
    omega
  have hmem : 125 ∈ data.drop (data.length % 2 ^ 32) := by
    rw [hbrace] at hfront ⊢
    rw [List.drop_append_of_le_length hfront]
    exact List.mem_append_right _ (List.mem_singleton.mpr rfl)
  intro hskip
  rw [skip, List.dropWhile_eq_nil_iff] at hskip
  exact absurd (hskip 125 hmem) Bool.false_ne_true

/-- A reply that is well formed as it is written, and ends with its brace. -/
theorem wellFormed_whole_iff (houtput : srv'.output = (srv₀.sendTo env id q).1.output)
    (hsame : srv₀.output = srv.output) (hcmd : q.cmd ∈ replyTypes) {front : Bytes}
    (hbrace : q.data = front ++ [125]) (hwell : WellFormed float env srv self p q.data) :
    RepliesWellFormed float env srv self p srv' ↔ Whole q.data := by
  rw [wellFormed_sendTo_iff houtput hsame hcmd]
  constructor
  · intro h hsend
    by_contra hlong
    obtain ⟨members, hparse, _⟩ := hwell
    obtain ⟨members', hcut, _⟩ := h hsend
    exact parse_cut_brace hbrace hparse (Nat.le_of_not_lt hlong) members' hcut
  · intro h hsend
    rw [cut_of_lt (h hsend)]
    exact hwell

/-- A step that hands nothing out. -/
theorem wellFormed_silent (houtput : srv'.output = srv.output) :
    RepliesWellFormed float env srv self p srv' :=
  ⟨[], delivers_nil houtput, fun _ hq => absurd hq List.not_mem_nil⟩

/-- A change inside a session sends nothing. -/
theorem output_modify (srv : ChatServer) (id : Nat) (f : ChatSession → ChatSession) :
    (srv.modify id f).output = srv.output := rfl

private theorem output_conclude (r : ChatServer × Option Bool) :
    (conclude r).output = r.1.output := by
  rw [conclude]
  split
  · rfl
  · rfl

private theorem output_returned (id : Nat) (r : ChatServer × Bool) :
    (returned id r).1.output = r.1.output := by
  rw [returned]
  split
  · rfl
  · rfl

/-- What a request hands out is what its handler does. -/
theorem output_serverStep {i : ServerInput} (h : Handles srv i self p) {r : ChatServer × Bool}
    (hdispatch : (srv.modify self.id fun s => { s with seq := p.seq }).dispatch env
      { self with seq := p.seq } p = returned self.id r) :
    (serverStep env srv i).output = r.1.output := by
  rw [serverStep_of_handles h, output_conclude, hdispatch, output_returned]

end Lemmas

end ChatRoom.Chat
