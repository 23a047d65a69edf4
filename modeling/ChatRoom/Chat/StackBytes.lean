import ChatRoom.Chat.ChatServer

/-!
# What a packet shows of the stack

The constructor of `BinaryStreamWriter` appends an array of six bytes that it has
not initialised. `Flush` fills the first four, nobody fills the other two, and they
travel in every packet. Two runs over different stacks hand over the same bytes
exactly when the stacks agree on those two.
-/

namespace ChatRoom.Chat

open ChatRoom.Core Net

/-- The three values written with the length `len` and framed by `sendPackage`. -/
def frame (host : Endian) (stack : Fin 6 → UInt8) (cmd seq : BitVec 32) (data : Bytes)
    (len : BitVec 64) : Option Bytes :=
  (writePackage stack cmd seq data len).bind (sendPackage host)

/-- The length that `TcpSession::send` gives to `WriteCString`: it passes through `int32_t`. -/
def sendLength (data : Bytes) : BitVec 64 := (BitVec.ofNat 32 data.length).signExtend 64

/-- The length that `WriteString` gives to `WriteCString`. -/
def stringLength (data : Bytes) : BitVec 64 := BitVec.ofNat 64 data.length

/-- What `onChatResponse` hands to each connection. -/
def chatFrame (host : Endian) (stack : Fin 6 → UInt8) (seq : BitVec 32) (os : Bytes) :
    Option Bytes :=
  frame host stack msgTypeChat seq os (stringLength os)

/-- `TcpSession::send` builds the frame of its message. -/
theorem send_eq_frame (host : Endian) (stack : Fin 6 → UInt8) (m : Packet) :
    send host stack m = frame host stack m.cmd m.seq m.data (sendLength m.data) := rfl

/-- Every session is handed the frame of the chat message, and nothing else is handed over. -/
theorem onChatResponse_hands (env : Env) (srv : ChatServer) (self : ChatSession) (data : Bytes) :
    (srv.onChatResponse env self data).1.output =
      srv.output ++ srv.sessions.flatMap fun s =>
        ((chatFrame env.host (env.stack srv.writers) self.seq (chatReply data)).map
          fun f => (s.id, f)).toList := by
  have hnone : srv.sessions.flatMap (fun s : ChatSession =>
      ((none : Option Bytes).map fun f => (s.id, f)).toList) = [] :=
    List.flatMap_eq_nil_iff.mpr fun s _ => rfl
  rw [chatFrame, frame, stringLength, ChatServer.onChatResponse]
  cases writePackage (env.stack srv.writers) msgTypeChat self.seq (chatReply data)
      (BitVec.ofNat 64 (chatReply data).length) with
  | none => rw [Option.bind_none, hnone, List.append_nil]
  | some outbuf =>
    rw [Option.bind_some]
    simp only [ChatServer.broadcast]
    cases sendPackage env.host outbuf with
    | none =>
      rw [hnone, List.append_nil]
      rfl
    | some f =>
      simp only [Option.map_some, Option.toList_some]
      rw [← List.map_eq_flatMap]
      rfl

/-! ## The package -/

/-- The size of the package when `WriteCString` is given `len`. -/
def packageLength (data : Bytes) (len : BitVec 64) : Nat :=
  6 + 4 + 4 + (write7BitEncoded len).length + min len.toNat data.length

/-- How many bytes of the package reach the connection: none when a string throws on the way,
and otherwise its length as an `int32_t`. -/
def bytesHanded (data : Bytes) (len : BitVec 64) : Nat :=
  let body := bodySize (BitVec.ofNat 32 (packageLength data len))
  if stringMaxSize < len.toNat ∨ stringMaxSize < body then 0 else body

/-- The two stacks agree on the bytes of the array that nobody fills, as far as they are
handed over. -/
def AgreeOnShown (stack stack' : Fin 6 → UInt8) (handed : Nat) : Prop :=
  ∀ i : Fin 6, 4 ≤ i.val → i.val < handed → stack i = stack' i

/-- What stands behind the inner header. -/
def packageFields (cmd seq : BitVec 32) (data : Bytes) (len : BitVec 64) : Bytes :=
  beBytes 4 cmd.toNat ++ (beBytes 4 seq.toNat ++ (write7BitEncoded len ++ data.take len.toNat))

private theorem agreeOnShown_split {stack stack' : Fin 6 → UInt8} {handed : Nat} :
    AgreeOnShown stack stack' handed ↔
      (4 < handed → stack 4 = stack' 4) ∧ (5 < handed → stack 5 = stack' 5) := by
  constructor
  · intro h
    exact ⟨h 4 (by decide), h 5 (by decide)⟩
  · rintro ⟨hfour, hfive⟩ ⟨i, hi⟩ hge hlt
    obtain rfl | rfl : i = 4 ∨ i = 5 := by
      dsimp only at hge
      omega
    · exact hfour hlt
    · exact hfive hlt

private theorem length_packageFields (cmd seq : BitVec 32) (data : Bytes) (len : BitVec 64) :
    6 + (packageFields cmd seq data len).length = packageLength data len := by
  simp only [packageFields, packageLength, List.length_append, length_beBytes, List.length_take]
  omega

/-- The package of any length that does not throw: bytes 4 and 5 come from the stack. -/
theorem writePackage_of_le (stack : Fin 6 → UInt8) (cmd seq : BitVec 32) (data : Bytes)
    {len : BitVec 64} (h : ¬ stringMaxSize < len.toNat) :
    writePackage stack cmd seq data len =
      some (beBytes 4 (packageLength data len) ++
        ([stack 4, stack 5] ++ packageFields cmd seq data len)) := by
  have hwritten : List.ofFn stack ++ beBytes 4 cmd.toNat ++ beBytes 4 seq.toNat ++
      write7BitEncoded len ++ data.take len.toNat =
        [stack 0, stack 1, stack 2, stack 3] ++
          ([stack 4, stack 5] ++ packageFields cmd seq data len) := by
    rw [show List.ofFn stack = [stack 0, stack 1, stack 2, stack 3] ++ [stack 4, stack 5] from rfl]
    simp only [packageFields, List.append_assoc]
  have htotal : ([stack 0, stack 1, stack 2, stack 3] ++
      ([stack 4, stack 5] ++ packageFields cmd seq data len)).length = packageLength data len := by
    rw [← length_packageFields cmd seq data len]
    simp only [List.length_append, List.length_cons, List.length_nil]
    omega
  simp only [writePackage, BinaryStreamWriter.writeCString, BinaryStreamWriter.writeInt32,
    BinaryStreamWriter.new, BinaryStreamWriter.flush, if_neg h, Option.map_some]
  rw [hwritten, htotal, overwrite_front (length_beBytes 4 _)]

/-- Cutting two packages that differ in the stack bytes only. -/
theorem take_package_eq_iff {front fields : Bytes} {a b a' b' : UInt8} {n : Nat}
    (h : front.length = 4) :
    (front ++ ([a, b] ++ fields)).take n = (front ++ ([a', b'] ++ fields)).take n ↔
      (4 < n → a = a') ∧ (5 < n → b = b') := by
  have htake : ∀ more : Bytes, (front ++ more).take n = front.take n ++ more.take (n - 4) := by
    intro more
    rw [List.take_append, h]
  rw [htake, htake, List.append_cancel_left_eq]
  by_cases hfour : 4 < n
  · obtain ⟨k, hk⟩ := Nat.exists_eq_add_of_lt hfour
    simp only [show n - 4 = k + 1 by omega, List.cons_append, List.nil_append,
      List.take_succ_cons, List.cons.injEq]
    by_cases hfive : 5 < n
    · obtain ⟨k, rfl⟩ := Nat.exists_eq_succ_of_ne_zero (show k ≠ 0 by omega)
      simp only [List.take_succ_cons, List.cons.injEq, and_true, hfour, hfive, forall_const]
    · have hk : k = 0 := by omega
      simp only [hk, List.take_zero, and_true, hfour, hfive, forall_const, false_implies]
  · have hzero : n - 4 = 0 := by omega
    have hfive : ¬ 5 < n := by omega
    simp only [hzero, List.take_zero, hfour, hfive, false_implies, and_self]

/-- Frames of one message over two stacks are equal exactly when the stacks agree on what is
shown of them. -/
theorem frame_eq_iff (host : Endian) (stack stack' : Fin 6 → UInt8) (cmd seq : BitVec 32)
    (data : Bytes) (len : BitVec 64) :
    frame host stack cmd seq data len = frame host stack' cmd seq data len ↔
      AgreeOnShown stack stack' (bytesHanded data len) := by
  by_cases hthrow : stringMaxSize < len.toNat
  · have hpackage : ∀ s, writePackage s cmd seq data len = none := by
      intro s
      simp only [writePackage, BinaryStreamWriter.writeCString, if_pos hthrow, Option.map_none]
    simp [frame, hpackage, agreeOnShown_split, bytesHanded, hthrow]
  · have hlength : ∀ a b : UInt8, (beBytes 4 (packageLength data len) ++
        ([a, b] ++ packageFields cmd seq data len)).length = packageLength data len := by
      intro a b
      rw [← length_packageFields cmd seq data len]
      simp only [List.length_append, length_beBytes, List.length_cons, List.length_nil]
      omega
    simp only [frame, writePackage_of_le _ cmd seq data hthrow, Option.bind_some, sendPackage,
      hlength, agreeOnShown_split, bytesHanded, hthrow, false_or]
    by_cases hbody : stringMaxSize < bodySize (BitVec.ofNat 32 (packageLength data len))
    · simp only [if_pos hbody, Nat.not_lt_zero, false_implies, and_self]
    · simp only [if_neg hbody, Option.some.injEq, List.append_cancel_left_eq]
      exact take_package_eq_iff (length_beBytes 4 _)

/-- A message whose package length fits `int32_t` shows both bytes. -/
theorem agreeOnShown_iff {data : Bytes} {len : BitVec 64} (stack stack' : Fin 6 → UInt8)
    (h : packageLength data len < 2 ^ 31) (hlen : len.toNat ≤ data.length) :
    AgreeOnShown stack stack' (bytesHanded data len) ↔
      stack 4 = stack' 4 ∧ stack 5 = stack' 5 := by
  have hbody := bodySize_ofNat h
  have hmin : 14 + min len.toNat data.length ≤ packageLength data len := by
    unfold packageLength
    omega
  have hmax : stringMaxSize = 4611686018427387903 := rfl
  have hhanded : bytesHanded data len = packageLength data len := by
    rw [bytesHanded, hbody, if_neg]
    omega
  rw [agreeOnShown_split, hhanded]
  simp only [show 4 < packageLength data len by omega, show 5 < packageLength data len by omega,
    forall_const]

/-- Two runs of `send`, or of the frame building of `onChatResponse`, over different stacks
hand the same bytes to the connection exactly when the stacks agree on the two bytes of the
array that are neither filled nor kept back. -/
theorem frames_agree_iff (host : Endian) (stack stack' : Fin 6 → UInt8) :
    (∀ m : Packet, send host stack m = send host stack' m ↔
      AgreeOnShown stack stack' (bytesHanded m.data (sendLength m.data))) ∧
    (∀ (seq : BitVec 32) (os : Bytes), chatFrame host stack seq os = chatFrame host stack' seq os ↔
      AgreeOnShown stack stack' (bytesHanded os (stringLength os))) := by
  constructor
  · intro m
    exact frame_eq_iff host stack stack' m.cmd m.seq m.data (sendLength m.data)
  · intro seq os
    exact frame_eq_iff host stack stack' msgTypeChat seq os (stringLength os)

/-- The fifth byte of an empty chat message is whatever the stack held. -/
theorem send_shows_stack :
    send .little (fun _ => 0) ⟨1100, 7, []⟩ =
        some [15, 0, 0, 0, 0, 0, 0, 15, 0, 0, 0, 0, 4, 76, 0, 0, 0, 7, 0] ∧
      send .little (fun i => if i = 4 then 83 else 0) ⟨1100, 7, []⟩ =
        some [15, 0, 0, 0, 0, 0, 0, 15, 83, 0, 0, 0, 4, 76, 0, 0, 0, 7, 0] := by
  decide

end ChatRoom.Chat
