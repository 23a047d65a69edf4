import ChatRoom.Chat.ReplyHandlers
import ChatRoom.Nlohmann.RoundTrip

/-!
# Requests that end the server

With the JSON library that the server is built with, it can be said which requests end the
process: a login without credentials, a request for the users when a name among them is not
UTF-8, a request for the messages when one of them is no JSON text, and a list that is too
long for its frame. No other packet does.
-/

namespace ChatRoom.Chat

open ChatRoom.Core Net ChatServer Nlohmann

/-- The JSON library of the server. -/
def nlohmann (toChars : BitVec 64 → Bytes) (strtod : Bytes → BitVec 64) : JsonLib where
  parse := parse strtod
  dump := dump toChars

section Throws

variable (toChars : BitVec 64 → Bytes) (strtod : Bytes → BitVec 64) (env : Env) (srv : ChatServer)

/-- The list of users cannot be sent. -/
def UsersUnsendable : Prop :=
  (∃ u ∈ srv.users, ¬ u.username.toByteArray.IsValidUTF8) ∨
    ∃ t, dump toChars (Json.pushed (srv.users.map userJson)) = some t ∧ ¬ Sendable (userListReply t)

/-- The messages cannot be sent. -/
def MsgsUnsendable : Prop :=
  (∃ data ∈ srv.history, parse strtod data = none) ∨
    ∃ msgs t, srv.history.mapM (parse strtod) = some msgs ∧
      dump toChars (Json.pushed msgs) = some t ∧ ¬ Sendable (msgsReply t)

/-- The handler of the packet `p` of the session `self` throws. -/
def Throws (self : ChatSession) (p : Packet) : Prop :=
  p.cmd = msgTypeLogin ∧ loginRequest (nlohmann toChars strtod) p.data = none ∨
  self.isLogin = true ∧ p.cmd = msgTypeGetuserlist ∧ UsersUnsendable toChars srv ∨
  self.isLogin = true ∧ p.cmd = msgTypeGetMsgs ∧ env.redis srv.redisCalls = true ∧
    MsgsUnsendable toChars strtod srv

end Throws

section Lists

variable {toChars : BitVec 64 → Bytes} {strtod : Bytes → BitVec 64} {env : Env}

private theorem utf8_pushed_iff {elements : List Json} :
    (Json.pushed elements).Utf8 ↔ ∀ e ∈ elements, e.Utf8 := by
  by_cases hempty : elements = []
  · rw [hempty]
    exact iff_of_true (Json.every_null_iff.mpr trivial) (List.forall_mem_nil _)
  · rw [pushed_of_ne_nil hempty, Json.Utf8, Json.every_array_iff]
    exact and_iff_right trivial

/-- The entry of a user can be printed exactly when the name is UTF-8. -/
theorem utf8_userJson_iff (u : User) :
    (userJson u).Utf8 ↔ u.username.toByteArray.IsValidUTF8 := by
  have hkeys : Json.Utf8Here (userJson u) :=
    List.forall_mem_cons.mpr ⟨verbatim_userid.valid,
      List.forall_mem_singleton.mpr verbatim_username.valid⟩
  rw [userJson, Json.Utf8, Json.every_object_iff]
  refine (and_iff_right hkeys).trans ?_
  rw [List.forall_mem_cons, List.forall_mem_singleton, Json.every_numberInteger_iff,
    Json.every_string_iff]
  exact and_iff_right trivial

private theorem sendTo_throws_iff (env : Env) (srv : ChatServer) (id : Nat) (p : Packet) :
    (srv.sendTo env id p).2 = false ↔ ¬ Sendable p.data := by
  by_cases h : Sendable p.data
  · obtain ⟨frame, _, hsend⟩ := sendTo_fits env srv id (p := { p with data := cut p.data }) h
    have hsame : srv.sendTo env id p = srv.sendTo env id { p with data := cut p.data } := by
      rw [sendTo, sendTo, send_cut env.host (env.stack srv.writers) p h]
    rw [hsame, hsend]
    exact iff_of_false Bool.noConfusion fun hnot => hnot h
  · rw [sendTo, send_none env.host (env.stack srv.writers) p h]
    exact iff_of_true rfl h

/-- A loop throws exactly when one of its turns does. -/
theorem mapM_eq_none_iff {α β : Type} {f : α → Option β} {l : List α} :
    l.mapM f = none ↔ ∃ a ∈ l, f a = none := by
  induction l with
  | nil => exact iff_of_false nofun fun ⟨_, ha, _⟩ => List.not_mem_nil ha
  | cons a l ih =>
    rw [JsonText.mapM_cons_eq, List.exists_mem_cons_iff, ← ih]
    cases f a <;> cases l.mapM f <;> simp

/-- The request for the users throws exactly when their list cannot be sent. -/
theorem onGetUserListResponse_throws_iff (hjson : env.json = nlohmann toChars strtod)
    (srv : ChatServer) (self : ChatSession) :
    (srv.onGetUserListResponse env self).2 = false ↔ UsersUnsendable toChars srv := by
  have hlist : srv.makeUpUserListInfo env = dump toChars (Json.pushed (srv.users.map userJson)) :=
    congrArg (fun json : JsonLib => json.dump (Json.pushed (srv.users.map userJson))) hjson
  have hvalid : (dump toChars (Json.pushed (srv.users.map userJson))).isSome = true ↔
      ∀ u ∈ srv.users, u.username.toByteArray.IsValidUTF8 := by
    rw [dump_isSome_iff, utf8_pushed_iff, List.forall_mem_map]
    simp only [utf8_userJson_iff]
  rw [onGetUserListResponse, hlist, UsersUnsendable]
  cases hdump : dump toChars (Json.pushed (srv.users.map userJson)) with
  | none =>
    rw [hdump, Option.isSome_none] at hvalid
    refine iff_of_true rfl (Or.inl ?_)
    by_contra hall
    push Not at hall
    exact Bool.false_ne_true (hvalid.mpr hall)
  | some t =>
    rw [hdump] at hvalid
    have hnames := hvalid.mp rfl
    dsimp only
    rw [sendTo_throws_iff]
    constructor
    · exact fun hsend => Or.inr ⟨t, rfl, hsend⟩
    · rintro (⟨u, hu, hnot⟩ | ⟨t', ht', hsend⟩)
      · exact absurd (hnames u hu) hnot
      · cases ht'
        exact hsend

private theorem sendable_null : Sendable (msgsReply (text "null")) := by
  rw [msgsReply_eq]
  exact (sendable_of_packageSize (packageSize_null (by rw [text_eq rfl]; decide))).1

/-- What has been parsed is printed. -/
theorem dump_of_mapM (toChars : BitVec 64 → Bytes) {texts : List Bytes} {msgs : List Json}
    (h : texts.mapM (parse strtod) = some msgs) : ∃ t, dump toChars (Json.pushed msgs) = some t := by
  rw [← Option.isSome_iff_exists, dump_isSome_iff, utf8_pushed_iff]
  intro e he
  obtain ⟨data, _, hdata⟩ := exists_of_forall₂ (forall₂_of_mapM h) he
  exact (sound_parse hdata).utf8

/-- The request for the messages throws exactly when Redis answers with messages that cannot
be sent. -/
theorem onGetMsgsResponse_throws_iff (hjson : env.json = nlohmann toChars strtod)
    (srv : ChatServer) (self : ChatSession) :
    (srv.onGetMsgsResponse env self).2 = false ↔
      env.redis srv.redisCalls = true ∧ MsgsUnsendable toChars strtod srv := by
  have hparse : env.json.parse = parse strtod := congrArg JsonLib.parse hjson
  have hdump : env.json.dump = dump toChars := congrArg JsonLib.dump hjson
  simp only [onGetMsgsResponse, loadMsgsFromRedis, hparse, hdump]
  cases hredis : env.redis srv.redisCalls with
  | false =>
    -- Nothing is loaded, and the reply to that is short.
    refine iff_of_false ?_ fun h => Bool.false_ne_true h.1
    have hnull : dump toChars (Json.pushed []) = some (text "null") := by
      rw [text_eq rfl]
      rfl
    have hnothing : ([] : List Bytes).mapM (parse strtod) = some [] := rfl
    rw [if_neg Bool.false_ne_true]
    simp only [hnothing, hnull, sendTo_throws_iff, not_not]
    exact sendable_null
  | true =>
    rw [if_pos rfl, and_iff_right rfl, MsgsUnsendable]
    cases hmsgs : srv.history.mapM (parse strtod) with
    | none => exact iff_of_true rfl (Or.inl (mapM_eq_none_iff.mp hmsgs))
    | some msgs =>
      obtain ⟨t, ht⟩ := dump_of_mapM toChars hmsgs
      simp only [ht, sendTo_throws_iff]
      constructor
      · exact fun hsend => Or.inr ⟨msgs, t, rfl, ht, hsend⟩
      · rintro (hnone | ⟨msgs', t', hmsgs', ht', hsend⟩)
        · rw [mapM_eq_none_iff.mpr hnone] at hmsgs
          cases hmsgs
        · cases hmsgs'
          rw [ht] at ht'
          cases ht'
          exact hsend

end Lists

/-! ## The other handlers -/

section Handlers

variable {toChars : BitVec 64 → Bytes} {strtod : Bytes → BitVec 64} {env : Env}

/-- A payload of one package is sent to everybody. -/
theorem onChatResponse_returns (env : Env) {srv : ChatServer} (self : ChatSession) {data : Bytes}
    (hsessions : srv.sessions ≠ []) (h : (data.length : Int) ≤ maxPackageSize) :
    (srv.onChatResponse env self data).2 = true := by
  obtain ⟨frame, _, houtput⟩ := onChatResponse_output env srv self h
  have hsilent : (srv.onChatResponse env self data).2 = false →
      (srv.onChatResponse env self data).1.output = srv.output := by
    unfold onChatResponse
    dsimp only
    split
    · exact fun _ => rfl
    · unfold broadcast
      split
      · exact fun _ => rfl
      · exact fun h => Bool.noConfusion h
  cases hresult : (srv.onChatResponse env self data).2 with
  | true => rfl
  | false =>
    rw [hsilent hresult, List.self_eq_append_right, List.map_eq_nil_iff] at houtput
    exact absurd houtput hsessions

/-- The strings that the library reads are no longer than their text. -/
theorem nlohmann_parsesWithin (toChars : BitVec 64 → Bytes) (strtod : Bytes → BitVec 64) :
    (nlohmann toChars strtod).ParsesWithin := by
  intro data j key s hparse hs
  have hsound := sound_parse hparse
  cases j with
  | object members =>
    rw [Json.stringAt] at hs
    split at hs
    · next s' hlookup =>
      cases hs
      obtain ⟨before, after, hmembers, _⟩ := List.lookup_eq_some_iff.mp hlookup
      have hmem : (key, Json.string s) ∈ members := by
        rw [hmembers]
        exact List.mem_append_right _ (List.mem_cons_self ..)
      exact ((Json.every_object_iff.mp hsound).2 _ hmem).here.2
    · cases hs
  | _ => cases hs

private theorem returned_none_iff (id : Nat) (r : ChatServer × Bool) :
    (returned id r).2 = none ↔ r.2 = false := by
  rw [returned]
  cases r.2 with
  | true => exact iff_of_false (Option.some_ne_none true) Bool.noConfusion
  | false => exact iff_of_true rfl rfl

variable {srv : ChatServer} {own : ChatSession} {beyond : Beyond} {body : Bytes} {p : Packet}

/-- A login throws exactly when its payload has no credentials. -/
theorem process_login_throws_iff (hjson : env.json = nlohmann toChars strtod)
    (hids : ∀ u ∈ srv.users, InInt32 u.userid) (hread : readPacket beyond body = some p)
    (hcmd : p.cmd = msgTypeLogin) (hbody : (body.length : Int) ≤ maxPackageSize) :
    (srv.process env own beyond body).2 = none ↔
      loginRequest (nlohmann toChars strtod) p.data = none := by
  rw [← hjson]
  cases hreq : loginRequest env.json p.data with
  | none =>
    rw [process_login_none hread hcmd hreq]
    exact iff_of_true rfl rfl
  | some request =>
    have hwithin : env.json.ParsesWithin := hjson ▸ nlohmann_parsesWithin toChars strtod
    have hname := length_username_le hwithin hreq
    have hdata := length_data_le hread
    obtain ⟨htrue, _⟩ := @process_login_some env srv own _ _ _ hread hcmd _ _ hreq (by omega) hids
    rw [htrue]
    exact iff_of_false (Option.some_ne_none true) (Option.some_ne_none request)

/-- Which packets make their handler throw. -/
theorem process_throws_iff (hjson : env.json = nlohmann toChars strtod)
    (hids : ∀ u ∈ srv.users, InInt32 u.userid) (hown : own ∈ srv.sessions)
    (hread : readPacket beyond body = some p) (hbody : (body.length : Int) ≤ maxPackageSize) :
    (srv.process env own beyond body).2 = none ↔ Throws toChars strtod env srv own p := by
  have hlist : msgTypeGetuserlist ≠ msgTypeLogin := by decide
  have hmsgs : msgTypeGetMsgs ≠ msgTypeLogin ∧ msgTypeGetMsgs ≠ msgTypeGetuserlist := by decide
  rw [Throws]
  by_cases hlogin : p.cmd = msgTypeLogin
  · rw [process_login_throws_iff hjson hids hread hlogin hbody]
    simp only [hlogin, hlist.symm, hmsgs.1.symm, true_and, false_and, and_false, or_false]
  · rw [process_of_readPacket hread, dispatch, if_neg hlogin]
    simp only [hlogin, false_and, false_or]
    cases hset : own.isLogin with
    | false =>
      -- Refused, with a text that fits.
      simp only [Bool.false_eq_true, if_false, false_and, or_false, iff_false]
      rw [returned_none_iff, sendTo_throws_iff, not_not]
      exact (sendable_of_packageSize packageSize_notLogin).1
    | true =>
      simp only [if_true, true_and]
      by_cases hgetuserlist : p.cmd = msgTypeGetuserlist
      · simp only [hgetuserlist, hmsgs.2.symm, if_true, true_and, false_and, or_false]
        rw [returned_none_iff, onGetUserListResponse_throws_iff hjson]
        rfl
      simp only [hgetuserlist, if_false, false_and, false_or]
      by_cases hgetMsgs : p.cmd = msgTypeGetMsgs
      · simp only [hgetMsgs, if_true, true_and]
        rw [returned_none_iff, onGetMsgsResponse_throws_iff hjson]
        rfl
      simp only [hgetMsgs, if_false, false_and, iff_false]
      split
      · have hdata := length_data_le hread
        rw [returned_none_iff, onChatResponse_returns env _ _ (by omega)]
        · exact Bool.noConfusion
        · exact List.ne_nil_of_mem (List.mem_map_of_mem hown)
      · exact Option.some_ne_none false

end Handlers

/-! ## Steps and runs -/

namespace ChatServer

/-- The users are the same, and so is whether the process has ended. -/
def Steady (srv srv' : ChatServer) : Prop :=
  srv'.users = srv.users ∧ srv'.terminated = srv.terminated

/-- `Steady` is transitive. -/
theorem Steady.trans {a b c : ChatServer} (h : a.Steady b) (h' : b.Steady c) : a.Steady c :=
  ⟨h'.1.trans h.1, h'.2.trans h.2⟩

private theorem Replied.steady {srv srv' : ChatServer} (h : srv.Replied srv') :
    srv.Steady srv' := by
  obtain ⟨_, _, _, rfl⟩ := h
  exact ⟨rfl, rfl⟩

/-- No handler ends the process by itself, and none changes the users. -/
theorem dispatch_steady (env : Env) (srv : ChatServer) (self : ChatSession) (p : Packet) :
    srv.Steady (srv.dispatch env self p).1 := by
  have hlogin : ∀ (srv : ChatServer) data, srv.Steady (srv.onLoginResponse env self data).1 :=
    onLoginResponse_keeps (fun _ => ⟨rfl, rfl⟩) Steady.trans
      (fun srv id p => (srv.sendTo_replied env id p).steady) (fun _ _ => ⟨rfl, rfl⟩)
      (fun _ _ _ => ⟨rfl, rfl⟩) fun _ => ⟨rfl, rfl⟩
  exact dispatch_keeps (R := Steady) Steady.trans hlogin Replied.steady (fun _ _ => ⟨rfl, rfl⟩)
    (fun _ _ => ⟨rfl, rfl⟩) (fun _ => ⟨rfl, rfl⟩) srv p

private theorem process_steady {beyond : Beyond} {body : Bytes} {p : Packet}
    (hread : readPacket beyond body = some p) (env : Env) (srv : ChatServer) (self : ChatSession) :
    srv.Steady (srv.process env self beyond body).1 := by
  have hseq : srv.Steady (srv.modify self.id fun s => { s with seq := p.seq }) := ⟨rfl, rfl⟩
  rw [process_of_readPacket hread]
  exact hseq.trans (dispatch_steady env _ _ p)

end ChatServer

private theorem conclude_live_iff (r : ChatServer × Option Bool) :
    (conclude r).terminated = false ↔ r.1.terminated = false ∧ r.2 ≠ none := by
  rw [conclude]
  cases r.2 with
  | none => exact iff_of_false Bool.noConfusion fun h => h.2 rfl
  | some b => exact (and_iff_left (Option.some_ne_none b)).symm

private theorem conclude_users (r : ChatServer × Option Bool) : (conclude r).users = r.1.users := by
  rw [conclude]
  split <;> rfl

/-- What `onRead` gives to `process` is no longer than a package may be. -/
def WithinPackage : ServerInput → Prop
  | .packet _ _ body => (body.length : Int) ≤ maxPackageSize
  | _ => True

private theorem serverStep_users (env : Env) (srv : ChatServer) (i : ServerInput) :
    (serverStep env srv i).users = srv.users := by
  by_cases hhandles : ∃ self p, Handles srv i self p
  · obtain ⟨self, p, hp⟩ := hhandles
    rw [serverStep_of_handles hp, conclude_users]
    exact (dispatch_steady env _ _ p).1
  · rcases serverStep_of_not_handles env srv i hhandles with hstep | hstep | ⟨_, hstep⟩ |
      ⟨_, _, hstep⟩ <;> rw [hstep]
    rfl

section Runs

variable {toChars : BitVec 64 → Bytes} {strtod : Bytes → BitVec 64} {env : Env}

/-- A step leaves the server running exactly when it has been running and the packet that is
handled, if there is one, does not throw. -/
theorem serverStep_live_iff (hjson : env.json = nlohmann toChars strtod) {srv : ChatServer}
    (hids : ∀ u ∈ srv.users, InInt32 u.userid) {i : ServerInput} (hwithin : WithinPackage i) :
    (serverStep env srv i).terminated = false ↔ srv.terminated = false ∧
      ∀ self p, Handles srv i self p → ¬ Throws toChars strtod env srv self p := by
  by_cases hhandles : ∃ self p, Handles srv i self p
  · obtain ⟨self, p, hp⟩ := hhandles
    have honly : ∀ self' p', Handles srv i self' p' → self' = self ∧ p' = p := by
      rintro self' p' ⟨_, _, _, _, hi, hfind', hread'⟩
      obtain ⟨_, _, _, _, hi', hfind, hread⟩ := hp
      cases hi.symm.trans hi'
      exact ⟨Option.some.inj (hfind'.symm.trans hfind), Option.some.inj (hread'.symm.trans hread)⟩
    have hthrows : (∀ self' p', Handles srv i self' p' → ¬ Throws toChars strtod env srv self' p') ↔
        ¬ Throws toChars strtod env srv self p := by
      refine ⟨fun h => h self p hp, fun h self' p' hp' => ?_⟩
      obtain ⟨rfl, rfl⟩ := honly self' p' hp'
      exact h
    obtain ⟨hlive, session, beyond, body, rfl, hfind, hread⟩ := hp
    have hstep : serverStep env srv (.packet session beyond body) =
        conclude (srv.process env self beyond body) := by
      simp only [serverStep, hlive, hfind, Bool.false_eq_true, if_false]
    rw [hstep, conclude_live_iff, (process_steady hread env srv self).2, hthrows, ne_eq,
      process_throws_iff hjson hids (List.mem_of_find?_eq_some hfind) hread hwithin]
  · have hsame : (serverStep env srv i).terminated = srv.terminated := by
      rcases serverStep_of_not_handles env srv i hhandles with hstep | hstep | ⟨_, hstep⟩ |
        ⟨_, _, hstep⟩ <;> rw [hstep]
      rfl
    rw [hsame]
    exact (and_iff_left fun self p hp => absurd ⟨self, p, hp⟩ hhandles).symm

/-- A run leaves the server running exactly when no packet that is handled in it throws. -/
theorem run_live_iff (hjson : env.json = nlohmann toChars strtod) {users : List User}
    (history : List Bytes) {inputs : List ServerInput} (hids : ∀ u ∈ users, InInt32 u.userid)
    (hwithin : ∀ i ∈ inputs, WithinPackage i) :
    (inputs.foldl (serverStep env) (start users history)).terminated = false ↔
      ∀ srv i, Visits (serverStep env) (start users history) inputs srv i →
        ∀ self p, Handles srv i self p → ¬ Throws toChars strtod env srv self p :=
  @foldl_iff_of_fits _ _ (serverStep env) (fun srv : ChatServer => srv.terminated = false)
    (fun srv => ∀ u ∈ srv.users, InInt32 u.userid) _ WithinPackage _ rfl hids
    (fun srv i h => (serverStep_users env srv i).symm ▸ h)
    (fun _ _ hi h => serverStep_live_iff hjson h hi) _ hwithin

end Runs

/-- A server with the library, on which Redis always answers. -/
def libraryEnv : Env :=
  ⟨.little, nlohmann sampleToChars sampleStrtod, fun _ _ => 0, fun _ => true⟩

/-- A login whose payload is `x` ends the run. -/
theorem run_ends_at_login :
    ([.connect, packetOf 1 msgTypeLogin (text "x")].foldl (serverStep libraryEnv)
      (start [⟨1, text "amy", text "a1"⟩] [])).terminated = true := by
  have hids : ∀ u ∈ [(⟨1, text "amy", text "a1"⟩ : User)], InInt32 u.userid := by
    intro u hu
    rw [List.mem_singleton.mp hu]
    constructor <;> decide
  have hwithin : ∀ i ∈ [.connect, packetOf 1 msgTypeLogin (text "x")], WithinPackage i := by
    refine List.forall_mem_cons.mpr ⟨trivial, List.forall_mem_singleton.mpr ?_⟩
    show (_ : Int) ≤ _
    decide +kernel
  have hiff := @run_live_iff _ _ libraryEnv rfl _ [] _ hids hwithin
  have hparse : loginRequest libraryEnv.json (text "x") = none := by
    have htext : text "x" = [120] := text_eq rfl
    have hnone : libraryEnv.json.parse [120] = none := by
      change parse sampleStrtod [120] = none
      rw [parse_eq, skipBom_of_ne (by decide)]
      rfl
    rw [htext, loginRequest, hnone]
  refine eq_true_of_ne_false fun hlive => ?_
  refine hiff.mp hlive _ (packetOf 1 msgTypeLogin (text "x")) ⟨[.connect], [], rfl, rfl⟩
    (.new 1) ⟨msgTypeLogin, 0, text "x"⟩ ⟨rfl, 1, _, _, rfl, rfl, ?_⟩ (Or.inl ⟨rfl, hparse⟩)
  exact readPacket_package _ _ _ (by decide +kernel)

end ChatRoom.Chat
