import ChatRoom.Core.Run
import ChatRoom.Chat.ChatServer

/-!
# The login flag as the gate of the protected commands

A packet with a protected command reaches its handler exactly when the flag of its
session is set, and only a login request changes that flag: it sets it on every
outcome, and nothing clears it. So the gate is sound as long as every login carries
the name and password of a cached user, and a kick, which only clears the user id,
never closes it again.
-/

namespace ChatRoom.Chat

open ChatRoom.Core Net

/-- The commands that need a login. -/
def Protected (cmd : BitVec 32) : Prop :=
  cmd = msgTypeGetuserlist ∨ cmd = msgTypeGetMsgs ∨ cmd = msgTypeChat

/-- In state `srv` the input is a packet `p` of a session that is there. -/
def Handles (srv : ChatServer) (i : ServerInput) (self : ChatSession) (p : Packet) : Prop :=
  srv.terminated = false ∧ ∃ session beyond body, i = .packet session beyond body ∧
    srv.find session = some self ∧ readPacket beyond body = some p

namespace ChatServer

/-! ## What a handler leaves alone -/

/-- Sessions, users and events are as they were. -/
def SameSessions (srv srv' : ChatServer) : Prop :=
  srv'.sessions = srv.sessions ∧ srv'.users = srv.users ∧ srv'.log = srv.log

/-- Nothing has changed but what was handed out and the two counters. -/
def Replied (srv srv' : ChatServer) : Prop :=
  ∃ output writers redisCalls,
    srv' = { srv with output := output, writers := writers, redisCalls := redisCalls }

/-- `Replied` is reflexive. -/
theorem Replied.refl (srv : ChatServer) : srv.Replied srv := ⟨_, _, _, rfl⟩

/-- `Replied` is transitive. -/
theorem Replied.trans {a b c : ChatServer} (h : a.Replied b) (h' : b.Replied c) : a.Replied c := by
  obtain ⟨_, _, _, rfl⟩ := h
  obtain ⟨_, _, _, rfl⟩ := h'
  exact ⟨_, _, _, rfl⟩

/-- An answer leaves the sessions as they are. -/
theorem Replied.sameSessions {srv srv' : ChatServer} (h : srv.Replied srv') :
    srv.SameSessions srv' := by
  obtain ⟨_, _, _, rfl⟩ := h
  exact ⟨rfl, rfl, rfl⟩

/-- `TcpSession::send` is an answer. -/
theorem sendTo_replied (env : Env) (srv : ChatServer) (id : Nat) (p : Packet) :
    srv.Replied (srv.sendTo env id p).1 := by
  unfold sendTo
  split
  · exact .refl srv
  · exact ⟨_, _, _, rfl⟩

/-- The list of users is an answer. -/
theorem onGetUserListResponse_replied (env : Env) (srv : ChatServer) (self : ChatSession) :
    srv.Replied (srv.onGetUserListResponse env self).1 := by
  unfold onGetUserListResponse
  split
  · exact .refl srv
  · exact srv.sendTo_replied env _ _

/-- The list of messages is an answer. -/
theorem onGetMsgsResponse_replied (env : Env) (srv : ChatServer) (self : ChatSession) :
    srv.Replied (srv.onGetMsgsResponse env self).1 := by
  have hload : srv.Replied (srv.loadMsgsFromRedis env).1 := ⟨_, _, _, rfl⟩
  unfold onGetMsgsResponse
  dsimp only
  split
  · exact hload
  · split
    · exact hload
    · exact hload.trans (sendTo_replied env _ _ _)

/-- Sending to all sessions is an answer. -/
theorem broadcast_replied (env : Env) (srv : ChatServer) (outbuf : Bytes) :
    srv.Replied (srv.broadcast env outbuf).1 := by
  unfold broadcast
  split
  · exact .refl srv
  · exact ⟨_, _, _, rfl⟩

/-- The chat handler replies to everybody, and changes the history before it does. -/
theorem onChatResponse_replied (env : Env) (srv : ChatServer) (self : ChatSession)
    (data : Bytes) :
    ∃ history, ({ srv with history := history } : ChatServer).Replied
      (srv.onChatResponse env self data).1 := by
  unfold onChatResponse
  dsimp only
  split
  · exact ⟨srv.history, .refl srv⟩
  · let srv' := ({ srv with writers := srv.writers + 1 } : ChatServer).addChatMsgToRedis env data
    have hstored : ({ srv with history := srv'.history } : ChatServer).Replied srv' :=
      ⟨srv.output, srv.writers + 1, srv.redisCalls + 1, rfl⟩
    exact ⟨srv'.history, hstored.trans (broadcast_replied env _ _)⟩

/-- A chat message leaves the sessions as they are. -/
theorem onChatResponse_sameSessions (env : Env) (srv : ChatServer) (self : ChatSession)
    (data : Bytes) : srv.SameSessions (srv.onChatResponse env self data).1 := by
  obtain ⟨history, hreplied⟩ := srv.onChatResponse_replied env self data
  exact hreplied.sameSessions

/-- The parts of the login handler: what each of them keeps, the handler keeps. -/
theorem onLoginResponse_keeps {R : ChatServer → ChatServer → Prop} {env : Env} {self : ChatSession}
    (hrefl : ∀ srv, R srv srv) (htrans : ∀ {a b c}, R a b → R b c → R a c)
    (hsend : ∀ srv id p, R srv (srv.sendTo env id p).1)
    (hkick : ∀ srv target, R srv (srv.makeSessionInvalid target self.id))
    (hrecord : ∀ srv userid username, R srv (srv.recordUser self.id userid username))
    (hflag : ∀ srv, R srv (srv.modify self.id fun s => { s with isLogin := true }))
    (srv : ChatServer) (data : Bytes) : R srv (srv.onLoginResponse env self data).1 := by
  have hthen : ∀ {srv : ChatServer} {r : ChatServer × Bool} {next : ChatServer → ChatServer × Bool},
      R srv r.1 → (∀ srv', R srv' (next srv').1) → R srv (andThen r next).1 := by
    intro srv r next h hnext
    unfold andThen
    split
    · exact htrans h (hnext _)
    · exact h
  have hreply : ∀ srv data, R srv (srv.replyLogin env self data).1 :=
    fun srv _ => hthen (hsend srv _ _) fun srv' => hflag srv'
  have hprevious : ∀ srv userid, R srv (srv.kickPrevious env self userid).1 := by
    intro srv userid
    unfold kickPrevious
    split
    · exact hrefl srv
    · exact hthen (hsend srv _ _) fun srv' => hkick srv' _
  unfold onLoginResponse
  split
  · exact hrefl srv
  · dsimp only
    split
    · exact hreply srv _
    · exact hthen (hprevious srv _) fun srv' => htrans (hrecord srv' _ _) (hreply _ _)

/-- The handlers of the switch: what the login handler, the answers and the counting of each of
them keep, the switch keeps. -/
theorem dispatch_keeps {R : ChatServer → ChatServer → Prop} {env : Env} {self : ChatSession}
    (htrans : ∀ {a b c}, R a b → R b c → R a c)
    (hlogin : ∀ srv data, R srv (srv.onLoginResponse env self data).1)
    (hreplied : ∀ {srv srv'}, Replied srv srv' → R srv srv')
    (hhistory : ∀ srv history, R srv { srv with history := history })
    (hnote : ∀ srv event, R srv (srv.note event))
    (hseq : ∀ srv, R srv (srv.modify self.id fun s => { s with seq := s.seq + 1 }))
    (srv : ChatServer) (p : Packet) : R srv (srv.dispatch env self p).1 := by
  have hreturned : ∀ r : ChatServer × Bool, R srv r.1 → R srv (returned self.id r).1 := by
    intro r h
    unfold returned
    split
    · exact htrans h (hseq r.1)
    · exact h
  unfold dispatch
  split
  · exact hreturned _ (hlogin srv p.data)
  · have hreached := hnote srv (.reached self.id p)
    split
    · split
      · exact hreturned _ (htrans hreached (hreplied (onGetUserListResponse_replied env _ self)))
      · split
        · exact hreturned _ (htrans hreached (hreplied (onGetMsgsResponse_replied env _ self)))
        · split
          · obtain ⟨history, hchat⟩ :=
              (srv.note (.reached self.id p)).onChatResponse_replied env self p.data
            exact hreturned _ (htrans hreached (htrans (hhistory _ history) (hreplied hchat)))
          · exact hreplied (.refl srv)
    · exact hreturned _ (hreplied (srv.sendTo_replied env _ _))

/-! ## Which flags a step may set, and which events it records -/

/-- No flag has been set but possibly those of the sessions in `ok`, and the users are the same. -/
def FlagsOnly (ok : Nat → Prop) (srv srv' : ChatServer) : Prop :=
  (∀ s' ∈ srv'.sessions, s'.isLogin → ok s'.id ∨ ∃ s ∈ srv.sessions, s.id = s'.id ∧ s.isLogin) ∧
    srv'.users = srv.users

/-- No packet has reached a handler. -/
def Quiet (srv srv' : ChatServer) : Prop :=
  ∃ ext, srv'.log = srv.log ++ ext ∧ ∀ session p, .reached session p ∉ ext

/-- `FlagsOnly` is transitive. -/
theorem FlagsOnly.trans {ok : Nat → Prop} {a b c : ChatServer} (h : FlagsOnly ok a b)
    (h' : FlagsOnly ok b c) : FlagsOnly ok a c := by
  refine ⟨fun s' hs' hset => ?_, h'.2.trans h.2⟩
  rcases h'.1 s' hs' hset with hid | ⟨s, hs, hsid, hsset⟩
  · exact Or.inl hid
  · rw [← hsid]
    exact h.1 s hs hsset

/-- `Quiet` is transitive. -/
theorem Quiet.trans {a b c : ChatServer} (h : Quiet a b) (h' : Quiet b c) : Quiet a c := by
  obtain ⟨ext, hlog, hext⟩ := h
  obtain ⟨ext', hlog', hext'⟩ := h'
  refine ⟨ext ++ ext', by rw [hlog', hlog, List.append_assoc], ?_⟩
  intro session p hmem
  rcases List.mem_append.mp hmem with hmem | hmem
  · exact hext session p hmem
  · exact hext' session p hmem

private theorem quiet_of_eq {srv srv' : ChatServer} (h : srv'.log = srv.log) : Quiet srv srv' :=
  ⟨[], by rw [h, List.append_nil], fun _ _ => List.not_mem_nil⟩

private theorem flagsOnly_of_eq {srv srv' : ChatServer} (ok : Nat → Prop)
    (hsessions : srv'.sessions = srv.sessions) (husers : srv'.users = srv.users) :
    FlagsOnly ok srv srv' :=
  ⟨fun s hs hset => Or.inr ⟨s, hsessions ▸ hs, rfl, hset⟩, husers⟩

/-- A change of one session that keeps its id, and sets its flag only if that is in `ok`. -/
theorem modify_flagsOnly {ok : Nat → Prop} (srv : ChatServer) (target : Nat)
    {f : ChatSession → ChatSession} (hid : ∀ s, (f s).id = s.id)
    (hflag : ∀ s, (f s).isLogin → ok target ∨ s.isLogin) :
    FlagsOnly ok srv (srv.modify target f) := by
  refine ⟨?_, rfl⟩
  intro s' hs' hset
  obtain ⟨s, hs, rfl⟩ := List.mem_map.mp hs'
  by_cases htarget : s.id = target
  · rw [if_pos htarget] at hset ⊢
    rw [hid, htarget]
    exact (hflag s hset).imp id fun hold => ⟨s, hs, htarget, hold⟩
  · rw [if_neg htarget] at hset ⊢
    exact Or.inr ⟨s, hs, rfl, hset⟩

/-- What a login does: it sets the flag of its own session and reaches no handler. -/
def LoginOnly (id : Nat) (srv srv' : ChatServer) : Prop :=
  FlagsOnly (fun k => k = id) srv srv' ∧ Quiet srv srv'

/-- `LoginOnly` is transitive. -/
theorem LoginOnly.trans {id : Nat} {a b c : ChatServer} (h : LoginOnly id a b)
    (h' : LoginOnly id b c) : LoginOnly id a c :=
  ⟨h.1.trans h'.1, h.2.trans h'.2⟩

private theorem SameSessions.loginOnly {srv srv' : ChatServer} (h : srv.SameSessions srv')
    (id : Nat) :
    LoginOnly id srv srv' :=
  ⟨flagsOnly_of_eq _ h.1 h.2.1, quiet_of_eq h.2.2⟩

private theorem note_loginOnly (srv : ChatServer) (id : Nat) {e : SessionEvent}
    (he : ∀ session p, e ≠ .reached session p) : LoginOnly id srv (srv.note e) := by
  refine ⟨flagsOnly_of_eq _ rfl rfl, [e], rfl, ?_⟩
  intro session p hmem
  exact he session p (List.mem_singleton.mp hmem).symm

/-- Writing a user id into a session leaves every flag alone. -/
theorem modify_note_loginOnly (srv : ChatServer) (id target : Nat) {f : ChatSession → ChatSession}
    {e : SessionEvent} (hid : ∀ s, (f s).id = s.id) (hflag : ∀ s, (f s).isLogin = s.isLogin)
    (he : ∀ session p, e ≠ .reached session p) :
    LoginOnly id srv ((srv.modify target f).note e) := by
  have hmodify : LoginOnly id srv (srv.modify target f) :=
    ⟨srv.modify_flagsOnly target hid fun s hset => Or.inr (hflag s ▸ hset), quiet_of_eq rfl⟩
  exact hmodify.trans (note_loginOnly _ _ he)

private theorem onLoginResponse_loginOnly (env : Env) (srv : ChatServer) (self : ChatSession)
    (data : Bytes) : LoginOnly self.id srv (srv.onLoginResponse env self data).1 := by
  refine onLoginResponse_keeps (R := LoginOnly self.id) ?_ LoginOnly.trans ?_ ?_ ?_ ?_ srv data
  · intro srv
    exact (show srv.SameSessions srv from ⟨rfl, rfl, rfl⟩).loginOnly _
  · intro srv id p
    exact (srv.sendTo_replied env id p).sameSessions.loginOnly _
  · intro srv target
    exact srv.modify_note_loginOnly _ _ (fun _ => rfl) (fun _ => rfl) (by intro _ _ h; cases h)
  · intro srv userid username
    exact srv.modify_note_loginOnly _ _ (fun _ => rfl) (fun _ => rfl) (by intro _ _ h; cases h)
  · intro srv
    exact ⟨srv.modify_flagsOnly self.id (fun _ => rfl) fun _ _ => Or.inl rfl, quiet_of_eq rfl⟩

/-! ## The switch -/

private theorem returned_flagsOnly (ok : Nat → Prop) (id : Nat) (r : ChatServer × Bool) :
    FlagsOnly ok r.1 (returned id r).1 := by
  unfold returned
  split
  · exact r.1.modify_flagsOnly id (fun _ => rfl) fun _ hset => Or.inr hset
  · exact flagsOnly_of_eq ok rfl rfl

private theorem returned_log (id : Nat) (r : ChatServer × Bool) :
    (returned id r).1.log = r.1.log := by
  unfold returned
  split <;> rfl

/-- A session that is logged in gets to the handler of the list of users. -/
theorem dispatch_getuserlist {env : Env} {srv : ChatServer} {self : ChatSession} {p : Packet}
    (hcmd : p.cmd = msgTypeGetuserlist) (hset : self.isLogin = true) :
    srv.dispatch env self p =
      returned self.id ((srv.note (.reached self.id p)).onGetUserListResponse env self) := by
  rw [dispatch, if_neg (by rw [hcmd]; decide), if_pos hset, if_pos hcmd]

/-- A session that is logged in gets to the handler of the list of messages. -/
theorem dispatch_getMsgs {env : Env} {srv : ChatServer} {self : ChatSession} {p : Packet}
    (hcmd : p.cmd = msgTypeGetMsgs) (hset : self.isLogin = true) :
    srv.dispatch env self p =
      returned self.id ((srv.note (.reached self.id p)).onGetMsgsResponse env self) := by
  rw [dispatch, if_neg (by rw [hcmd]; decide), if_pos hset, if_neg (by rw [hcmd]; decide),
    if_pos hcmd]

/-- A session that is logged in gets to the handler of chat messages. -/
theorem dispatch_chat {env : Env} {srv : ChatServer} {self : ChatSession} {p : Packet}
    (hcmd : p.cmd = msgTypeChat) (hset : self.isLogin = true) :
    srv.dispatch env self p =
      returned self.id ((srv.note (.reached self.id p)).onChatResponse env self p.data) := by
  rw [dispatch, if_neg (by rw [hcmd]; decide), if_pos hset, if_neg (by rw [hcmd]; decide),
    if_neg (by rw [hcmd]; decide), if_pos hcmd]

/-- A protected packet of a session whose flag is set reaches its handler, and no flag changes. -/
theorem dispatch_reached (env : Env) (srv : ChatServer) {self : ChatSession} {p : Packet}
    (hp : Protected p.cmd) (hset : self.isLogin = true) :
    (srv.dispatch env self p).1.log = srv.log ++ [.reached self.id p] ∧
      FlagsOnly (fun _ => False) srv (srv.dispatch env self p).1 := by
  have hhandler : ∀ r : ChatServer × Bool, (srv.note (.reached self.id p)).SameSessions r.1 →
      (returned self.id r).1.log = srv.log ++ [.reached self.id p] ∧
        FlagsOnly (fun _ => False) srv (returned self.id r).1 := by
    intro r hr
    have hflags : FlagsOnly (fun _ => False) srv r.1 := flagsOnly_of_eq _ hr.1 hr.2.1
    exact ⟨(returned_log _ r).trans hr.2.2, hflags.trans (returned_flagsOnly _ _ r)⟩
  rcases hp with hcmd | hcmd | hcmd
  · rw [dispatch_getuserlist hcmd hset]
    exact hhandler _ (onGetUserListResponse_replied env _ self).sameSessions
  · rw [dispatch_getMsgs hcmd hset]
    exact hhandler _ (onGetMsgsResponse_replied env _ self).sameSessions
  · rw [dispatch_chat hcmd hset]
    exact hhandler _ (onChatResponse_sameSessions env _ self p.data)

/-- Every other packet reaches no handler, and only a login with credentials may set the
flag of its session. -/
theorem dispatch_quiet (env : Env) (srv : ChatServer) {self : ChatSession} {p : Packet}
    (h : ¬ (Protected p.cmd ∧ self.isLogin = true)) :
    Quiet srv (srv.dispatch env self p).1 ∧
      FlagsOnly (fun id => id = self.id ∧ p.cmd = msgTypeLogin ∧
        loginRequest env.json p.data ≠ none) srv (srv.dispatch env self p).1 := by
  have hsame : ∀ ok, Quiet srv srv ∧ FlagsOnly ok srv srv :=
    fun ok => ⟨quiet_of_eq rfl, flagsOnly_of_eq ok rfl rfl⟩
  unfold dispatch
  by_cases hlogin : p.cmd = msgTypeLogin
  · rw [if_pos hlogin]
    have honly := srv.onLoginResponse_loginOnly env self p.data
    have hflags := returned_flagsOnly (fun id => id = self.id ∧ p.cmd = msgTypeLogin ∧
      loginRequest env.json p.data ≠ none) self.id (srv.onLoginResponse env self p.data)
    refine ⟨honly.2.trans (quiet_of_eq (returned_log _ _)), FlagsOnly.trans ?_ hflags⟩
    cases hreq : loginRequest env.json p.data with
    | none =>
      rw [onLoginResponse, hreq]
      exact flagsOnly_of_eq _ rfl rfl
    | some request =>
      refine ⟨fun s hs hset => ?_, honly.1.2⟩
      exact (honly.1.1 s hs hset).imp (fun hid => ⟨hid, hlogin, Option.some_ne_none _⟩) id
  · rw [if_neg hlogin]
    by_cases hset : self.isLogin = true
    · have hp : ¬ Protected p.cmd := fun hp => h ⟨hp, hset⟩
      simp only [Protected, not_or] at hp
      rw [if_pos hset, if_neg hp.1, if_neg hp.2.1, if_neg hp.2.2]
      exact hsame _
    · rw [if_neg hset]
      have hsend := (srv.sendTo_replied env self.id ⟨p.cmd, self.seq, notLogin⟩).sameSessions
      exact ⟨quiet_of_eq ((returned_log _ _).trans hsend.2.2),
        (flagsOnly_of_eq _ hsend.1 hsend.2.1).trans (returned_flagsOnly _ _ _)⟩

/-- What a handler returns does not change the sessions, while the connection stays open. -/
theorem conclude_sameSessions (r : ChatServer × Option Bool) : r.1.SameSessions (conclude r) := by
  unfold conclude
  split <;> exact ⟨rfl, rfl, rfl⟩

/-- The reads at the top of `process` are those of `readPacket`. -/
theorem process_of_readPacket {beyond : Beyond} {body : Bytes} {p : Packet}
    (h : readPacket beyond body = some p) (env : Env) (srv : ChatServer) (self : ChatSession) :
    srv.process env self beyond body =
      (srv.modify self.id fun s => { s with seq := p.seq }).dispatch env
        { self with seq := p.seq } p := by
  unfold readPacket at h
  unfold process
  rcases hcmd : (BinaryStreamReader.new body beyond).readInt32 with ⟨r, _ | cmd⟩
  · simp only [hcmd, reduceCtorEq] at h
  · rcases hseq : r.readInt32 with ⟨r', _ | seq⟩
    · simp only [hcmd, hseq, reduceCtorEq] at h
    · rcases hdata : r'.readString 0 with ⟨r'', _ | data⟩
      · simp only [hcmd, hseq, hdata, reduceCtorEq] at h
      · simp only [hcmd, hseq, hdata, Option.some.injEq] at h
        rw [← h]
        simp only [hseq, hdata]

/-- A body that does not decode changes at most the sequence number of its session. -/
theorem process_of_readPacket_none {beyond : Beyond} {body : Bytes}
    (h : readPacket beyond body = none) (env : Env) (srv : ChatServer) (self : ChatSession) :
    ∃ seq, (srv.process env self beyond body).2 = some false ∧
      ((srv.process env self beyond body).1 = srv ∨
        (srv.process env self beyond body).1 =
          srv.modify self.id fun s => { s with seq := seq }) := by
  unfold readPacket at h
  unfold process
  rcases hcmd : (BinaryStreamReader.new body beyond).readInt32 with ⟨r, _ | cmd⟩
  · exact ⟨0, rfl, Or.inl rfl⟩
  · dsimp only
    rcases hseq : r.readInt32 with ⟨r', _ | seq⟩
    · exact ⟨0, rfl, Or.inl rfl⟩
    · dsimp only
      rcases hdata : r'.readString 0 with ⟨r'', _ | data⟩
      · exact ⟨seq, rfl, Or.inr rfl⟩
      · simp only [hcmd, hseq, hdata, reduceCtorEq] at h

/-- A frame that can be built goes to the connection of the session. -/
theorem sendTo_of_send {env : Env} {srv : ChatServer} {id : Nat} {p : Packet} {frame : Bytes}
    (h : send env.host (env.stack srv.writers) p = some frame) :
    srv.sendTo env id p =
      ({ srv with output := srv.output ++ [(id, frame)], writers := srv.writers + 1 }, true) := by
  rw [sendTo, h]

private theorem modify_modify (srv : ChatServer) (id : Nat) (f g : ChatSession → ChatSession)
    (hid : ∀ s, (f s).id = s.id) :
    (srv.modify id f).modify id g = srv.modify id fun s => g (f s) := by
  simp only [modify, List.map_map]
  congr 1
  apply List.map_congr_left
  intro s _
  by_cases hs : s.id = id
  · simp only [Function.comp_apply, if_pos hs, hid]
  · simp only [Function.comp_apply, if_neg hs]

end ChatServer

open ChatServer

/-- A handled packet goes through the switch with its sequence number read into the session. -/
theorem serverStep_of_handles {env : Env} {srv : ChatServer} {i : ServerInput} {self : ChatSession}
    {p : Packet} (h : Handles srv i self p) :
    serverStep env srv i =
      conclude ((srv.modify self.id fun s => { s with seq := p.seq }).dispatch env
        { self with seq := p.seq } p) := by
  obtain ⟨hlive, session, beyond, body, rfl, hfind, hread⟩ := h
  unfold serverStep
  rw [hlive, if_neg Bool.false_ne_true]
  dsimp only
  rw [hfind]
  exact congrArg conclude (process_of_readPacket hread env srv self)

private theorem modify_seq_flagsOnly (srv : ChatServer) (ok : Nat → Prop) (id : Nat)
    (seq : BitVec 32) : FlagsOnly ok srv (srv.modify id fun s => { s with seq := seq }) :=
  srv.modify_flagsOnly id (fun _ => rfl) fun _ hset => Or.inr hset

/-- A step that handles no packet does nothing, adds or drops a session, or has read the
sequence number of a body that does not decode. -/
theorem serverStep_of_not_handles (env : Env) (srv : ChatServer) (i : ServerInput)
    (h : ¬ ∃ self p, Handles srv i self p) :
    serverStep env srv i = srv ∨
      serverStep env srv i =
        { srv with
          sessionId := srv.sessionId + 1
          sessions := srv.sessions ++ [.new (srv.sessionId + 1)] } ∨
      (∃ session, serverStep env srv i =
        { srv with sessions := srv.sessions.filter fun s => s.id ≠ session }) ∨
      ∃ id seq, serverStep env srv i = srv.modify id fun s => { s with seq := seq } := by
  unfold serverStep
  by_cases hlive : srv.terminated = true
  · rw [if_pos hlive]
    exact Or.inl rfl
  · rw [if_neg hlive]
    cases i with
    | connect => exact Or.inr (Or.inl rfl)
    | disconnect session => exact Or.inr (Or.inr (Or.inl ⟨session, rfl⟩))
    | packet session beyond body =>
      dsimp only
      cases hfind : srv.find session with
      | none => exact Or.inl rfl
      | some self =>
        cases hread : readPacket beyond body with
        | some p =>
          refine absurd ⟨self, p, ?_, session, beyond, body, rfl, hfind, hread⟩ h
          exact Bool.eq_false_iff.mpr hlive
        | none =>
          obtain ⟨seq, hfalse, hstate⟩ := process_of_readPacket_none hread env srv self
          dsimp only
          rw [conclude, hfalse]
          exact hstate.imp id fun hstate => Or.inr (Or.inr ⟨self.id, seq, hstate⟩)

/-- Such a step changes no flag and records nothing. -/
theorem quiet_of_not_handles (env : Env) (srv : ChatServer) (i : ServerInput)
    (h : ¬ ∃ self p, Handles srv i self p) (ok : Nat → Prop) :
    Quiet srv (serverStep env srv i) ∧ FlagsOnly ok srv (serverStep env srv i) := by
  rcases serverStep_of_not_handles env srv i h with hstep | hstep | ⟨session, hstep⟩ |
    ⟨id, seq, hstep⟩ <;> rw [hstep]
  · exact ⟨quiet_of_eq rfl, flagsOnly_of_eq ok rfl rfl⟩
  · refine ⟨quiet_of_eq rfl, fun s hs hset => ?_, rfl⟩
    rcases List.mem_append.mp hs with hold | hnew
    · exact Or.inr ⟨s, hold, rfl, hset⟩
    · rw [List.mem_singleton.mp hnew] at hset
      exact absurd hset Bool.false_ne_true
  · exact ⟨quiet_of_eq rfl, fun s hs hset => Or.inr ⟨s, List.mem_of_mem_filter hs, rfl, hset⟩, rfl⟩
  · exact ⟨quiet_of_eq rfl, modify_seq_flagsOnly srv ok id seq⟩

/-- A step at which no protected packet passes the gate reaches no handler, and sets no
flag but that of a session whose login request carries credentials. -/
theorem serverStep_quiet (env : Env) (srv : ChatServer) (i : ServerInput)
    (h : ∀ self p, Handles srv i self p → ¬ (Protected p.cmd ∧ self.isLogin = true)) :
    Quiet srv (serverStep env srv i) ∧
      FlagsOnly (fun id => ∃ self p, Handles srv i self p ∧ id = self.id ∧
        p.cmd = msgTypeLogin ∧ loginRequest env.json p.data ≠ none) srv (serverStep env srv i) := by
  by_cases hhandles : ∃ self p, Handles srv i self p
  · obtain ⟨self, p, hp⟩ := hhandles
    rw [serverStep_of_handles hp]
    have hgate : ¬ (Protected p.cmd ∧ { self with seq := p.seq }.isLogin = true) := h self p hp
    obtain ⟨hquiet, hflags⟩ := dispatch_quiet env
      (srv.modify self.id fun s => { s with seq := p.seq }) hgate
    have hend := conclude_sameSessions ((srv.modify self.id fun s => { s with seq := p.seq }).dispatch
      env { self with seq := p.seq } p)
    refine ⟨((quiet_of_eq rfl).trans hquiet).trans (quiet_of_eq hend.2.2), ?_⟩
    refine ((modify_seq_flagsOnly srv _ self.id p.seq).trans ?_).trans
      (flagsOnly_of_eq _ hend.1 hend.2.1)
    refine ⟨fun s hs hset => ?_, hflags.2⟩
    exact (hflags.1 s hs hset).imp (fun hok => ⟨self, p, hp, hok⟩) id
  · exact quiet_of_not_handles env srv i hhandles _

/-- A protected packet of a session whose flag is set reaches its handler, and no flag changes. -/
theorem serverStep_reached {env : Env} {srv : ChatServer} {i : ServerInput} {self : ChatSession}
    {p : Packet} (h : Handles srv i self p) (hp : Protected p.cmd) (hset : self.isLogin = true) :
    (serverStep env srv i).log = srv.log ++ [.reached self.id p] ∧
      ∀ ok, FlagsOnly ok srv (serverStep env srv i) := by
  rw [serverStep_of_handles h]
  have hread : { self with seq := p.seq }.isLogin = true := hset
  obtain ⟨hlog, hflags⟩ := dispatch_reached env
    (srv.modify self.id fun s => { s with seq := p.seq }) hp hread
  have hend := conclude_sameSessions ((srv.modify self.id fun s => { s with seq := p.seq }).dispatch
    env { self with seq := p.seq } p)
  refine ⟨hend.2.2.trans hlog, fun ok => ?_⟩
  refine ((modify_seq_flagsOnly srv ok self.id p.seq).trans ?_).trans
    (flagsOnly_of_eq ok hend.1 hend.2.1)
  exact ⟨fun s hs hs' => Or.inr ((hflags.1 s hs hs').resolve_left id), hflags.2⟩

/-- The only step that sets a flag is a login request with credentials, and it sets its own. -/
theorem serverStep_flagsOnly (env : Env) (srv : ChatServer) (i : ServerInput) :
    FlagsOnly (fun id => ∃ self p, Handles srv i self p ∧ id = self.id ∧
      p.cmd = msgTypeLogin ∧ loginRequest env.json p.data ≠ none) srv (serverStep env srv i) := by
  by_cases h : ∃ self p, Handles srv i self p ∧ Protected p.cmd ∧ self.isLogin = true
  · obtain ⟨self, p, hhandles, hp, hset⟩ := h
    exact (serverStep_reached hhandles hp hset).2 _
  · exact (serverStep_quiet env srv i fun self p hp hgate => h ⟨self, p, hp, hgate⟩).2

/-! ## Authentication -/

/-- Among the inputs is a login of the session with the name and password of a cached user. -/
def MatchedLogin (env : Env) (users : List User) (inputs : List ServerInput) (session : Nat) :
    Prop :=
  ∃ beyond body p u, ServerInput.packet session beyond body ∈ inputs ∧
    readPacket beyond body = some p ∧ p.cmd = msgTypeLogin ∧ u ∈ users ∧
      loginRequest env.json p.data = some (u.username, u.password)

/-- Every login request with string credentials carries those of a cached user. -/
def LoginsMatch (env : Env) (users : List User) (inputs : List ServerInput) : Prop :=
  ∀ session beyond body p request, ServerInput.packet session beyond body ∈ inputs →
    readPacket beyond body = some p → p.cmd = msgTypeLogin →
      loginRequest env.json p.data = some request →
        ∃ u ∈ users, request = (u.username, u.password)

/-- The session gets the reply with code 2; its own sequence number apart, nothing else changes. -/
def Refused (env : Env) (srv srv' : ChatServer) (self : ChatSession) (p : Packet) : Prop :=
  ∃ frame, send env.host (env.stack srv.writers) ⟨p.cmd, p.seq, notLogin⟩ = some frame ∧
    srv' =
      { srv.modify self.id (fun s => { s with seq := p.seq + 1 }) with
        output := srv.output ++ [(self.id, frame)]
        writers := srv.writers + 1 }

/-- Along a run, a protected packet reaches its handler only after a matching login of
its session, and without one it is refused. -/
def GateHolds (env : Env) (users : List User) (history : List Bytes)
    (inputs : List ServerInput) : Prop :=
  ∀ before i after self p, inputs = before ++ i :: after →
    let srv := before.foldl (serverStep env) (start users history)
    Handles srv i self p → Protected p.cmd →
      ((serverStep env srv i).log = srv.log ++ [.reached self.id p] →
        MatchedLogin env users before self.id) ∧
      (¬ MatchedLogin env users before self.id → Refused env srv (serverStep env srv i) self p)

/-- A login that has happened is part of every longer run. -/
theorem MatchedLogin.append {env : Env} {users : List User} {inputs : List ServerInput}
    {session : Nat} (h : MatchedLogin env users inputs session) (more : List ServerInput) :
    MatchedLogin env users (inputs ++ more) session := by
  obtain ⟨beyond, body, p, u, hmem, hrest⟩ := h
  exact ⟨beyond, body, p, u, List.mem_append_left _ hmem, hrest⟩

/-- When every login matches, every flag that is set was set by a matching login. -/
theorem matchedLogin_of_isLogin {env : Env} {users : List User} {history : List Bytes}
    {inputs : List ServerInput} (hmatch : LoginsMatch env users inputs) :
    ∀ s ∈ (inputs.foldl (serverStep env) (start users history)).sessions, s.isLogin = true →
      MatchedLogin env users inputs s.id := by
  induction inputs using List.reverseRecOn with
  | nil =>
    intro s hs
    cases hs
  | append_singleton inputs last ih =>
    have hearlier := ih fun session beyond body p request hmem =>
      hmatch session beyond body p request (List.mem_append_left _ hmem)
    rw [List.foldl_append, List.foldl_cons, List.foldl_nil]
    intro s hs hset
    rcases (serverStep_flagsOnly env _ last).1 s hs hset with ⟨self, p, hhandles, hid, hcmd, hreq⟩ |
      ⟨old, hold, hsame, holdset⟩
    · obtain ⟨_, session, beyond, body, rfl, hfind, hread⟩ := hhandles
      obtain ⟨request, hrequest⟩ := Option.ne_none_iff_exists'.mp hreq
      have hmem : ServerInput.packet session beyond body ∈
          inputs ++ [ServerInput.packet session beyond body] :=
        List.mem_append_right _ (List.mem_singleton.mpr rfl)
      obtain ⟨u, hu, rfl⟩ := hmatch session beyond body p request hmem hread hcmd hrequest
      rw [hid, find_id hfind]
      exact ⟨beyond, body, p, u, hmem, hread, hcmd, hu, hrequest⟩
    · rw [← hsame]
      exact (hearlier old hold holdset).append _

/-- The answer fits a frame. -/
theorem packageSize_notLogin : packageSize notLogin < 2 ^ 31 := by
  apply packageSize_lt
  simp only [notLogin, text_eq rfl]
  decide

/-- A protected packet of a session whose flag is clear is refused. -/
theorem serverStep_refused {env : Env} {srv : ChatServer} {i : ServerInput} {self : ChatSession}
    {p : Packet} (h : Handles srv i self p) (hp : Protected p.cmd) (hset : self.isLogin = false) :
    Refused env srv (serverStep env srv i) self p := by
  have hcmd : p.cmd ≠ msgTypeLogin := by
    rcases hp with hcmd | hcmd | hcmd <;> rw [hcmd] <;> decide
  have hsend := send_eq env.host (env.stack srv.writers) ⟨p.cmd, p.seq, notLogin⟩
    packageSize_notLogin
  have hsent : (srv.modify self.id fun s => { s with seq := p.seq }).sendTo env self.id
      ⟨p.cmd, p.seq, notLogin⟩ = _ := sendTo_of_send hsend
  refine ⟨_, hsend, ?_⟩
  rw [serverStep_of_handles h, dispatch, if_neg hcmd, hset, if_neg Bool.false_ne_true]
  refine (congrArg (fun r => conclude (returned self.id r)) hsent).trans ?_
  have hseq := srv.modify_modify self.id (fun s => { s with seq := p.seq })
    (fun s => { s with seq := s.seq + 1 }) fun _ => rfl
  rw [← hseq]
  rfl

/-- The gate holds along every run in which every login request with string credentials
carries those of a cached user. -/
theorem gate_holds_of_loginsMatch (env : Env) (users : List User) (history : List Bytes)
    (inputs : List ServerInput) (hmatch : LoginsMatch env users inputs) :
    GateHolds env users history inputs := by
  intro before i after self p hinputs srv hhandles hp
  have hbefore : LoginsMatch env users before := fun session beyond body q request hmem =>
    hmatch session beyond body q request (hinputs ▸ List.mem_append_left _ hmem)
  have hflag : self.isLogin = true → MatchedLogin env users before self.id := by
    obtain ⟨_, session, _, _, _, hfind, _⟩ := hhandles
    exact matchedLogin_of_isLogin hbefore self (List.mem_of_find?_eq_some hfind)
  cases hset : self.isLogin with
  | true => exact ⟨fun _ => hflag hset, fun hnone => absurd (hflag hset) hnone⟩
  | false =>
    have hrefused : Refused env srv (serverStep env srv i) self p :=
      serverStep_refused hhandles hp hset
    refine ⟨fun hreached => ?_, fun _ => hrefused⟩
    obtain ⟨frame, _, hstate⟩ := hrefused
    have hlog : (serverStep env srv i).log = srv.log := by
      rw [hstate]
      rfl
    rw [hlog] at hreached
    exact absurd (List.self_eq_append_right.mp hreached) (List.cons_ne_nil _ _)

/-- The text of a login request, and the value it parses to. -/
def credentials (username password : String) : Bytes × Json :=
  (text ("\x7b\"username\": \"" ++ username ++ "\", \"password\": \"" ++ password ++ "\"\x7d"),
    .object [(text "password", .string (text password)), (text "username", .string (text username))])

/-- An environment whose JSON library meets these requests only. -/
def sampleEnv (requests : List (Bytes × Json)) : Env :=
  ⟨.little, ⟨fun data => requests.lookup data, fun _ => none⟩, fun _ _ => 0, fun _ => true⟩

/-- A packet of a session, as its client's `send` packs it. -/
def packetOf (session : Nat) (cmd : BitVec 32) (data : Bytes) : ServerInput :=
  .packet session ⟨fun _ => 0, 0⟩ (package (fun _ => 0) ⟨cmd, 0, data⟩)

/-- With the right password the run of a login and a chat message meets the condition. -/
theorem gate_holds_after_login :
    LoginsMatch (sampleEnv [credentials "amy" "a1"]) [⟨1, text "amy", text "a1"⟩]
        [.connect, packetOf 1 msgTypeLogin (credentials "amy" "a1").1,
          packetOf 1 msgTypeChat (text "1")] ∧
      GateHolds (sampleEnv [credentials "amy" "a1"]) [⟨1, text "amy", text "a1"⟩] []
        [.connect, packetOf 1 msgTypeLogin (credentials "amy" "a1").1,
          packetOf 1 msgTypeChat (text "1")] := by
  have hmatch : LoginsMatch (sampleEnv [credentials "amy" "a1"]) [⟨1, text "amy", text "a1"⟩]
      [.connect, packetOf 1 msgTypeLogin (credentials "amy" "a1").1,
        packetOf 1 msgTypeChat (text "1")] := by
    intro session beyond body p request hmem hread hcmd hrequest
    simp only [packetOf, List.mem_cons, List.not_mem_nil, or_false, reduceCtorEq, false_or,
      ServerInput.packet.injEq] at hmem
    rcases hmem with ⟨_, rfl, rfl⟩ | ⟨_, rfl, rfl⟩
    · rw [readPacket_package _ _ _ (by decide +kernel)] at hread
      cases hread
      refine ⟨_, List.mem_singleton.mpr rfl, ?_⟩
      refine Option.some.inj (hrequest.symm.trans ?_)
      decide +kernel
    · rw [readPacket_package _ _ _ (by decide +kernel)] at hread
      cases hread
      exact absurd hcmd (by decide)
  exact ⟨hmatch, gate_holds_of_loginsMatch _ _ [] _ hmatch⟩

/-- A wrong password is answered with code 1 and opens the gate all the same. -/
theorem wrong_password_opens_gate :
    ¬ GateHolds (sampleEnv [credentials "amy" "zz"]) [⟨1, text "amy", text "a1"⟩] []
        [.connect, packetOf 1 msgTypeLogin (credentials "amy" "zz").1,
          packetOf 1 msgTypeChat (text "1")] := by
  intro h
  have hgate := h [.connect, packetOf 1 msgTypeLogin (credentials "amy" "zz").1]
    (packetOf 1 msgTypeChat (text "1")) [] ⟨1, 0, [], 1, true⟩ ⟨msgTypeChat, 0, text "1"⟩ rfl
    ⟨by decide +kernel, 1, _, _, rfl, by decide +kernel, readPacket_package _ _ _ (by decide +kernel)⟩
    (Or.inr (Or.inr rfl))
  obtain ⟨beyond, body, p, u, hmem, hread, hcmd, hu, hrequest⟩ := hgate.1 (by decide +kernel)
  simp only [packetOf, List.mem_cons, List.not_mem_nil, or_false, reduceCtorEq, false_or,
    ServerInput.packet.injEq] at hmem
  obtain ⟨_, rfl, rfl⟩ := hmem
  rw [readPacket_package _ _ _ (by decide +kernel)] at hread
  cases hread
  obtain rfl := List.mem_singleton.mp hu
  exact absurd hrequest (by decide +kernel)

end ChatRoom.Chat
