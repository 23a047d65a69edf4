import ChatRoom.Chat.LoginFlag

/-!
# A kick leaves the gate open

A login on an account that another session holds makes that session invalid, which
clears its user id and nothing else. Its protected packets reach their handlers as
long as its login flag is set, and that is from its first login request on. So the
packets that get through after a kick are exactly those of sessions that had sent a
login request at any time before.
-/

namespace ChatRoom.Chat

open ChatRoom.Core Net ChatServer

/-- Another session has made this one invalid, and it has not logged in since. -/
def Revoked (log : List SessionEvent) (session : Nat) : Prop :=
  ∃ before by_ after, log = before ++ .invalidated session by_ :: after ∧ by_ ≠ session ∧
    SessionEvent.loggedIn session ∉ after

/-- No packet of a session reaches its handler while the session is revoked. -/
def KickRevokes (log : List SessionEvent) : Prop :=
  Along (fun before e => ∀ session p, e = .reached session p → ¬ Revoked before session) log

private theorem kickRevokes_concat_reached {log : List SessionEvent} {session : Nat} {p : Packet} :
    KickRevokes (log ++ [.reached session p]) ↔ KickRevokes log ∧ ¬ Revoked log session := by
  rw [KickRevokes, along_concat]
  refine and_congr_right fun _ => ⟨fun h => h session p rfl, fun h _ _ heq => ?_⟩
  cases heq
  exact h

private theorem ChatServer.Quiet.kickRevokes_iff {srv srv' : ChatServer} (h : Quiet srv srv') :
    KickRevokes srv'.log ↔ KickRevokes srv.log := by
  obtain ⟨ext, hlog, hext⟩ := h
  rw [hlog]
  refine along_append_of_forall fun e he before session p heq => ?_
  rw [heq] at he
  exact absurd he (hext session p)

/-- An input makes at most one session handle a packet, and one packet. -/
theorem Handles.unique {srv : ChatServer} {i : ServerInput} {self self' : ChatSession}
    {p p' : Packet} (h : Handles srv i self p) (h' : Handles srv i self' p') :
    self' = self ∧ p' = p := by
  obtain ⟨_, session, beyond, body, rfl, hfind, hread⟩ := h
  obtain ⟨_, _, _, _, heq, hfind', hread'⟩ := h'
  cases heq
  rw [hfind] at hfind'
  rw [hread] at hread'
  cases hfind'
  cases hread'
  exact ⟨rfl, rfl⟩

/-- What lets a step keep kicked sessions out. -/
def KeepsOut (srv : ChatServer) (i : ServerInput) : Prop :=
  ∀ self p, Handles srv i self p → Protected p.cmd → Revoked srv.log self.id →
    self.isLogin = false

private theorem kickRevokes_step (env : Env) (srv : ChatServer) (i : ServerInput) :
    KickRevokes (serverStep env srv i).log ↔ KickRevokes srv.log ∧ KeepsOut srv i := by
  by_cases h : ∃ self p, Handles srv i self p ∧ Protected p.cmd ∧ self.isLogin = true
  · obtain ⟨self, p, hhandles, hp, hset⟩ := h
    rw [(serverStep_reached hhandles hp hset).1, kickRevokes_concat_reached]
    refine and_congr_right fun _ => ⟨fun hout self' p' hhandles' _ hrev => ?_, fun hout hrev => ?_⟩
    · rw [(hhandles.unique hhandles').1] at hrev
      exact absurd hrev hout
    · rw [hout self p hhandles hp hrev] at hset
      exact Bool.false_ne_true hset
  · have hclosed : ∀ self p, Handles srv i self p →
        ¬ (Protected p.cmd ∧ self.isLogin = true) :=
      fun self p hhandles hgate => h ⟨self, p, hhandles, hgate⟩
    rw [(serverStep_quiet env srv i hclosed).1.kickRevokes_iff]
    refine (and_iff_left ?_).symm
    intro self p hhandles hp _
    exact Bool.eq_false_iff.mpr fun hset => hclosed self p hhandles ⟨hp, hset⟩

/-- In every run, kicked sessions are kept out until they log in again exactly when no kicked
session sends a protected packet after one of its login requests, of whatever outcome, has
been handled. -/
theorem kick_revokes_iff (env : Env) (users : List User) (history : List Bytes)
    (inputs : List ServerInput) :
    KickRevokes (inputs.foldl (serverStep env) (start users history)).log ↔
      ∀ before i after self p, inputs = before ++ i :: after →
        let srv := before.foldl (serverStep env) (start users history)
        Handles srv i self p → Protected p.cmd → Revoked srv.log self.id →
          ¬ LoginHandled env users history before self.id := by
  have hempty : KickRevokes (start users history).log := along_nil _
  rw [@foldl_iff_of_visits _ _ (serverStep env) (fun srv => KickRevokes srv.log) (fun _ => True)
    KeepsOut _ hempty trivial (fun _ _ _ => trivial) (fun srv i _ => kickRevokes_step env srv i)
    inputs]
  have hflag : ∀ {before : List ServerInput} {i self p},
      Handles (before.foldl (serverStep env) (start users history)) i self p →
        (self.isLogin = false ↔ ¬ LoginHandled env users history before self.id) := by
    rintro before i self p ⟨hlive, _, _, _, _, hfind, _⟩
    rw [← isLogin_iff_loginHandled hlive (List.mem_of_find?_eq_some hfind), Bool.not_eq_true]
  constructor
  · intro h before i after self p hinputs srv hhandles hp hrev
    exact (hflag hhandles).mp (h srv i ⟨before, after, hinputs, rfl⟩ self p hhandles hp hrev)
  · rintro h _ i ⟨before, after, hinputs, rfl⟩ self p hhandles hp hrev
    exact (hflag hhandles).mpr (h before i after self p hinputs hhandles hp hrev)

/-- The account of session 1 logs in on session 2, and session 1 still chats. -/
theorem kicked_session_still_chats :
    ¬ KickRevokes ([.connect, .connect, packetOf 1 msgTypeLogin (credentials "amy" "a1").1,
        packetOf 2 msgTypeLogin (credentials "amy" "a1").1,
        packetOf 1 msgTypeChat (text "1")].foldl (serverStep (sampleEnv [credentials "amy" "a1"]))
          (start [⟨1, text "amy", text "a1"⟩] [])).log := by
  have hlog : ([.connect, .connect, packetOf 1 msgTypeLogin (credentials "amy" "a1").1,
        packetOf 2 msgTypeLogin (credentials "amy" "a1").1,
        packetOf 1 msgTypeChat (text "1")].foldl (serverStep (sampleEnv [credentials "amy" "a1"]))
          (start [⟨1, text "amy", text "a1"⟩] [])).log =
      [.loggedIn 1, .invalidated 1 2, .loggedIn 2] ++ [.reached 1 ⟨msgTypeChat, 0, text "1"⟩] := by
    decide +kernel
  rw [hlog, kickRevokes_concat_reached]
  exact fun h => h.2 ⟨[.loggedIn 1], 2, [.loggedIn 2], rfl, by decide, by decide⟩

end ChatRoom.Chat
