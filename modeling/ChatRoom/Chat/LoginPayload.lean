import ChatRoom.Chat.LoginOutcome

/-!
# Bad login payloads

The payload of a login packet goes to `json::parse` and to two conversions that
throw, and nothing between `onLoginResponse` and the event loop catches. A packet
whose payload holds a string user name and a string password is answered once; any
other one ends the process.
-/

namespace ChatRoom.Chat

open ChatRoom.Core Net ChatServer

/-- `process` as `onRead` calls it for the packets of one session. -/
def sessionProcess (env : Env) (session : Nat) (beyond : Beyond) (srv : ChatServer) (body : Bytes) :
    ChatServer × Option Bool :=
  match srv.find session with
  | none => (srv, some false)
  | some self => srv.process env self beyond body

/-- What is asked of the handling of a login packet `p` of the session `own`. -/
structure PayloadHandled (env : Env) (srv : ChatServer) (own : ChatSession) (beyond : Beyond)
    (body : Bytes) (p : Packet) : Prop where
  /-- No exception leaves `process`, nor `onRead` on the frame of the packet. -/
  returns : (srv.process env own beyond body).2 ≠ none
  completes : ∀ b : Buffer, b.content = env.host.encode headerSize body.length ++ body →
    (onRead env.host (sessionProcess env own.id beyond) srv b).status = .waiting ∨
      (onRead env.host (sessionProcess env own.id beyond) srv b).status = .closed
  /-- The client is closed, or gets one login reply with the sequence number of its request. -/
  replied : (srv.process env own beyond body).2 = some false ∨
    ∃ ps data, Delivers srv (srv.process env own beyond body).1 ps ∧
      ps.filter (fun q => q.2.cmd = msgTypeLogin) = [(own.id, ⟨msgTypeLogin, p.seq, data⟩)]
  /-- A payload without credentials leaves every other session alone. -/
  others : loginRequest env.json p.data = none →
    ∀ s ∈ (srv.process env own beyond body).1.sessions, s.id ≠ own.id → s ∈ srv.sessions

/-- The strings of a parsed text are no longer than the text. -/
def JsonLib.ParsesWithin (json : JsonLib) : Prop :=
  ∀ data j key s, json.parse data = some j → j.stringAt key = some s → s.length ≤ data.length

/-- A name in a request is no longer than the request. -/
theorem length_username_le {json : JsonLib} (h : json.ParsesWithin) {data username password : Bytes}
    (hreq : loginRequest json data = some (username, password)) :
    username.length ≤ data.length := by
  cases hparse : json.parse data with
  | none =>
    simp only [loginRequest, hparse] at hreq
    cases hreq
  | some j =>
    simp only [loginRequest, hparse] at hreq
    split at hreq
    · next hname _ =>
      cases hreq
      exact h data j _ _ hparse hname
    · cases hreq

section Payload

variable {env : Env} {srv : ChatServer} {own : ChatSession} {beyond : Beyond} {body : Bytes}
  {p : Packet}

private theorem process_login (hread : readPacket beyond body = some p)
    (hcmd : p.cmd = msgTypeLogin) :
    srv.process env own beyond body =
      returned own.id ((srv.modify own.id fun s => { s with seq := p.seq }).onLoginResponse env
        { own with seq := p.seq } p.data) := by
  rw [process_of_readPacket hread, dispatch, if_pos hcmd]

/-- A payload without credentials throws. -/
theorem process_login_none (hread : readPacket beyond body = some p)
    (hcmd : p.cmd = msgTypeLogin) (hreq : loginRequest env.json p.data = none) :
    srv.process env own beyond body =
      (srv.modify own.id fun s => { s with seq := p.seq }, none) := by
  rw [process_login hread hcmd, onLoginResponse, hreq, returned, if_neg Bool.false_ne_true]

/-- A payload with credentials is answered once. -/
theorem process_login_some (hread : readPacket beyond body = some p)
    (hcmd : p.cmd = msgTypeLogin) {username password : Bytes}
    (hreq : loginRequest env.json p.data = some (username, password))
    (hname : (username.length : Int) ≤ maxPackageSize)
    (hids : ∀ u ∈ srv.users, InInt32 u.userid) :
    (srv.process env own beyond body).2 = some true ∧
      ∃ ps data, Delivers srv (srv.process env own beyond body).1 ps ∧
        ps.filter (fun q => q.2.cmd = msgTypeLogin) = [(own.id, ⟨msgTypeLogin, p.seq, data⟩)] := by
  let read := srv.modify own.id fun s => { s with seq := p.seq }
  let self : ChatSession := { own with seq := p.seq }
  have hanswer : (read.onLoginResponse env self p.data).2 = true ∧
      ∃ ps data, Delivers read (read.onLoginResponse env self p.data).1 ps ∧
        ps.filter (fun q => q.2.cmd = msgTypeLogin) = [(own.id, ⟨msgTypeLogin, p.seq, data⟩)] := by
    by_cases hright : (getUserInfoByUsername read.users username).password = password
    · have hfits : packageSize (loginOk (getUserInfoByUsername read.users username).userid
          (getUserInfoByUsername read.users username).username) < 2 ^ 31 := by
        rw [getUserInfoByUsername_eq]
        cases hu : findUser read.users username with
        | none => exact packageSize_loginOk (by constructor <;> decide) (by decide)
        | some u =>
          exact packageSize_loginOk (hids u (List.mem_of_find?_eq_some hu))
            (username_of_findUser hu ▸ hname)
      obtain ⟨hok, hdelivers, -, -⟩ := onLoginResponse_right self hreq hright hfits
      exact ⟨hok, _, _, hdelivers, filter_login _ _ _ _⟩
    · obtain ⟨hok, hdelivers, -, -⟩ :=
        replyLogin_fits env read self packageSize_incorrectPassword
      rw [onLoginResponse_wrong hreq hright]
      exact ⟨hok, _, _, hdelivers, rfl⟩
  obtain ⟨hok, ps, data, hdelivers, honly⟩ := hanswer
  have hprocess : srv.process env own beyond body =
      returned own.id (read.onLoginResponse env self p.data) := process_login hread hcmd
  rw [returned, if_pos hok] at hprocess
  rw [hprocess]
  exact ⟨rfl, ps, data, hdelivers, honly⟩

private theorem sessionProcess_of_find (hfind : srv.find own.id = some own) :
    sessionProcess env own.id beyond srv body = srv.process env own beyond body := by
  rw [sessionProcess, hfind]

/-- One frame in the buffer: `onRead` ends as its `process` does. -/
theorem onRead_one_frame {σ : Type} (host : Endian) (process : σ → Bytes → σ × Option Bool) (st : σ)
    (hmax : (body.length : Int) ≤ maxPackageSize) {b : Buffer}
    (hb : b.content = host.encode headerSize body.length ++ body) :
    (onRead host process st b).status =
      match (process st body).2 with
      | some true => .waiting
      | some false => .closed
      | none => .raised := by
  rw [onRead_status, hb, ← List.append_nil (host.encode headerSize body.length ++ body),
    scan_front_frame host process st body [] hmax]
  rcases process st body with ⟨st', _ | _ | _⟩ <;> rfl

/-- Over every payload that a login packet can carry: it is handled exactly when it holds a
string user name and a string password. -/
theorem login_payload_handled_iff (hparse : env.json.ParsesWithin)
    (hids : ∀ u ∈ srv.users, InInt32 u.userid) (hfind : srv.find own.id = some own)
    (hread : readPacket beyond body = some p) (hcmd : p.cmd = msgTypeLogin)
    (hmax : (body.length : Int) ≤ maxPackageSize) :
    PayloadHandled env srv own beyond body p ↔ loginRequest env.json p.data ≠ none := by
  constructor
  · intro h hnone
    have hraised := h.returns
    rw [process_login_none hread hcmd hnone] at hraised
    exact hraised rfl
  · intro hsome
    obtain ⟨⟨username, password⟩, hreq⟩ := Option.ne_none_iff_exists'.mp hsome
    have hname : (username.length : Int) ≤ maxPackageSize := by
      have hdata := length_data_le hread
      have hshort := length_username_le hparse hreq
      omega
    have hanswered : (srv.process env own beyond body).2 = some true ∧ _ :=
      process_login_some hread hcmd hreq hname hids
    obtain ⟨htrue, hreply⟩ := hanswered
    refine ⟨?_, fun b hb => Or.inl ?_, Or.inr hreply, fun hnone => absurd hnone hsome⟩
    · rw [htrue]
      exact Option.some_ne_none true
    · rw [onRead_one_frame env.host _ srv hmax hb, sessionProcess_of_find hfind, htrue]

end Payload

/-- The body of a login packet with this payload. -/
def loginBody (data : Bytes) : Bytes := package (fun _ => 0) ⟨msgTypeLogin, 0, data⟩

private theorem readPacket_loginBody (beyond : Beyond) {data : Bytes} (h : data.length < 2 ^ 32) :
    readPacket beyond (loginBody data) = some ⟨msgTypeLogin, 0, data⟩ :=
  readPacket_package beyond _ _ h

private theorem sampleEnv_parsesWithin :
    (sampleEnv [credentials "amy" "a1"]).json.ParsesWithin := by
  intro data j key s hparse hs
  have hlookup : [credentials "amy" "a1"].lookup data = some j := hparse
  rw [List.lookup_cons, List.lookup_nil] at hlookup
  cases hdata : data == (credentials "amy" "a1").1 with
  | false =>
    rw [hdata] at hlookup
    cases hlookup
  | true =>
    rw [hdata] at hlookup
    cases hlookup
    rw [eq_of_beq hdata]
    have hshort : ∀ v ∈ [text "a1", text "amy"], v.length ≤ (credentials "amy" "a1").1.length := by
      decide +kernel
    apply hshort
    simp only [credentials, Json.stringAt, List.lookup_cons, List.lookup_nil] at hs
    cases hpassword : key == text "password" with
    | true =>
      simp only [hpassword, Option.some.injEq] at hs
      rw [← hs]
      exact List.mem_cons_self ..
    | false =>
      cases hname : key == text "username" with
      | true =>
        simp only [hpassword, hname, Option.some.injEq] at hs
        rw [← hs]
        exact List.mem_cons_of_mem _ (List.mem_singleton_self _)
      | false => simp only [hpassword, hname, reduceCtorEq] at hs

/-- A login packet with credentials is answered. -/
theorem login_payload_handled_for_credentials :
    PayloadHandled (sampleEnv [credentials "amy" "a1"]) twoSessions (.new 2) ⟨fun _ => 0, 0⟩
      (loginBody (credentials "amy" "a1").1) ⟨msgTypeLogin, 0, (credentials "amy" "a1").1⟩ := by
  refine (login_payload_handled_iff sampleEnv_parsesWithin ?_ rfl
    (readPacket_loginBody _ (by decide +kernel)) rfl (by decide +kernel)).mpr (by decide +kernel)
  intro u hu
  rw [List.mem_singleton.mp hu]
  constructor <;> decide

/-- The payload `x` is no JSON text: the exception ends the server. -/
theorem login_payload_ends_server :
    (serverStep (sampleEnv []) twoSessions
        (.packet 2 ⟨fun _ => 0, 0⟩ (loginBody (text "x")))).terminated = true ∧
      ¬ PayloadHandled (sampleEnv []) twoSessions (.new 2) ⟨fun _ => 0, 0⟩ (loginBody (text "x"))
        ⟨msgTypeLogin, 0, text "x"⟩ := by
  refine ⟨by decide +kernel, fun h => ?_⟩
  have hraised := h.returns
  rw [process_login_none (readPacket_loginBody _ (by decide +kernel)) rfl rfl] at hraised
  exact hraised rfl

end ChatRoom.Chat
