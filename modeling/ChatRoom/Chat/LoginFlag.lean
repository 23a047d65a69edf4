import Mathlib.Data.List.Nodup
import ChatRoom.Chat.Gate

/-!
# Which sessions have their login flag set

The server gives each number out once, and nothing clears the login flag of a session.
So as long as the server runs, the flag of a session is set exactly when one of the
login requests it has sent has been handled, whatever the outcome was.
-/

namespace ChatRoom.Chat

open ChatRoom.Core Net

namespace ChatServer

/-! ## The numbers of the sessions -/

/-- Sessions keep their numbers and places, and none is given out. -/
def SameIds (srv srv' : ChatServer) : Prop :=
  srv'.sessions.map (·.id) = srv.sessions.map (·.id) ∧ srv'.sessionId = srv.sessionId

/-- `SameIds` is reflexive. -/
theorem SameIds.refl (srv : ChatServer) : srv.SameIds srv := ⟨rfl, rfl⟩

/-- `SameIds` is transitive. -/
theorem SameIds.trans {a b c : ChatServer} (h : a.SameIds b) (h' : b.SameIds c) : a.SameIds c :=
  ⟨h'.1.trans h.1, h'.2.trans h.2⟩

/-- A change inside a session gives out no number. -/
theorem modify_sameIds (srv : ChatServer) (id : Nat) {f : ChatSession → ChatSession}
    (hf : ∀ s, (f s).id = s.id) : srv.SameIds (srv.modify id f) := by
  refine ⟨?_, rfl⟩
  rw [modify, List.map_map]
  refine List.map_congr_left fun s _ => ?_
  rw [Function.comp_apply]
  split
  · exact hf s
  · rfl

private theorem Replied.sameIds {srv srv' : ChatServer} (h : srv.Replied srv') :
    srv.SameIds srv' := by
  obtain ⟨_, _, _, rfl⟩ := h
  exact ⟨rfl, rfl⟩

private theorem onLoginResponse_sameIds (env : Env) (srv : ChatServer) (self : ChatSession)
    (data : Bytes) : srv.SameIds (srv.onLoginResponse env self data).1 :=
  onLoginResponse_keeps SameIds.refl SameIds.trans
    (fun srv id p => (srv.sendTo_replied env id p).sameIds)
    (fun srv target => srv.modify_sameIds target fun _ => rfl)
    (fun srv _ _ => srv.modify_sameIds self.id fun _ => rfl)
    (fun srv => srv.modify_sameIds self.id fun _ => rfl) srv data

private theorem dispatch_sameIds (env : Env) (srv : ChatServer) (self : ChatSession) (p : Packet) :
    srv.SameIds (srv.dispatch env self p).1 :=
  dispatch_keeps (R := SameIds) SameIds.trans
    (fun srv data => srv.onLoginResponse_sameIds env self data) Replied.sameIds
    (fun _ _ => ⟨rfl, rfl⟩) (fun _ _ => ⟨rfl, rfl⟩)
    (fun srv => srv.modify_sameIds self.id fun _ => rfl) srv p

/-- The numbers in the list are distinct and have all been given out. -/
structure Numbered (srv : ChatServer) : Prop where
  nodup : (srv.sessions.map (·.id)).Nodup
  issued : ∀ id ∈ srv.sessions.map (·.id), id ≤ srv.sessionId

private theorem Numbered.of_sameIds {srv srv' : ChatServer} (h : srv.Numbered)
    (hs : srv.SameIds srv') :
    srv'.Numbered := by
  constructor
  · rw [hs.1]
    exact h.nodup
  · rw [hs.1, hs.2]
    exact h.issued

/-- A new session gets a number that no other has. -/
theorem Numbered.connect {srv : ChatServer} (h : srv.Numbered) :
    ({ srv with
      sessionId := srv.sessionId + 1
      sessions := srv.sessions ++ [.new (srv.sessionId + 1)] } : ChatServer).Numbered := by
  have hids : (srv.sessions ++ [ChatSession.new (srv.sessionId + 1)]).map (·.id) =
      srv.sessions.map (·.id) ++ [srv.sessionId + 1] := List.map_append
  constructor
  · rw [hids]
    refine List.nodup_append.mpr ⟨h.nodup, List.pairwise_singleton _ _, ?_⟩
    rintro id hold _ hnew rfl
    have hle := h.issued id hold
    rw [List.mem_singleton.mp hnew] at hle
    omega
  · intro id hid
    rw [hids] at hid
    rcases List.mem_append.mp hid with hold | hnew
    · exact Nat.le_succ_of_le (h.issued id hold)
    · exact Nat.le_of_eq (List.mem_singleton.mp hnew)

/-- Erasing a session keeps the numbers apart. -/
theorem Numbered.disconnect {srv : ChatServer} (h : srv.Numbered) (session : Nat) :
    ({ srv with sessions := srv.sessions.filter fun s => s.id ≠ session } : ChatServer).Numbered := by
  have hsub : ((srv.sessions.filter fun s => s.id ≠ session).map (·.id)).Sublist
      (srv.sessions.map (·.id)) := List.Sublist.map _ List.filter_sublist
  exact ⟨h.nodup.sublist hsub, fun id hid => h.issued id (hsub.subset hid)⟩

/-- A step keeps the numbers, or adds or drops a session. -/
theorem serverStep_sameIds_or (env : Env) (srv : ChatServer) (i : ServerInput) :
    srv.SameIds (serverStep env srv i) ∨
      serverStep env srv i =
        { srv with
          sessionId := srv.sessionId + 1
          sessions := srv.sessions ++ [.new (srv.sessionId + 1)] } ∨
      ∃ session, serverStep env srv i =
        { srv with sessions := srv.sessions.filter fun s => s.id ≠ session } := by
  by_cases hhandles : ∃ self p, Handles srv i self p
  · obtain ⟨self, p, hp⟩ := hhandles
    have hconclude : ∀ r : ChatServer × Option Bool, r.1.SameIds (conclude r) := by
      intro r
      unfold conclude
      split <;> exact ⟨rfl, rfl⟩
    have hseq := srv.modify_sameIds self.id (f := fun s => { s with seq := p.seq }) fun _ => rfl
    rw [serverStep_of_handles hp]
    exact Or.inl ((hseq.trans (dispatch_sameIds env _ _ p)).trans (hconclude _))
  · rcases serverStep_of_not_handles env srv i hhandles with hstep | hstep | hstep |
      ⟨id, seq, hstep⟩
    · rw [hstep]
      exact Or.inl (.refl srv)
    · exact Or.inr (Or.inl hstep)
    · exact Or.inr (Or.inr hstep)
    · rw [hstep]
      exact Or.inl (srv.modify_sameIds id fun _ => rfl)

/-- Every input keeps the numbers apart. -/
theorem Numbered.step {srv : ChatServer} (h : srv.Numbered) (env : Env) (i : ServerInput) :
    (serverStep env srv i).Numbered := by
  rcases serverStep_sameIds_or env srv i with hsame | hstep | ⟨session, hstep⟩
  · exact h.of_sameIds hsame
  · rw [hstep]
    exact h.connect
  · rw [hstep]
    exact h.disconnect session

/-- Numbers are given out in increasing order. -/
theorem serverStep_sessionId_le (env : Env) (srv : ChatServer) (i : ServerInput) :
    srv.sessionId ≤ (serverStep env srv i).sessionId := by
  rcases serverStep_sameIds_or env srv i with hsame | hstep | ⟨session, hstep⟩
  · exact Nat.le_of_eq hsame.2.symm
  · rw [hstep]
    exact Nat.le_succ _
  · exact Nat.le_of_eq (congrArg ChatServer.sessionId hstep).symm

/-- There is no session at the start. -/
theorem numbered_start (users : List User) (history : List Bytes) :
    (start users history).Numbered := ⟨List.nodup_nil, nofun⟩

/-- After every run, each session has a number of its own that has been given out. -/
theorem numbered_run (env : Env) (users : List User) (history : List Bytes)
    (inputs : List ServerInput) :
    (inputs.foldl (serverStep env) (start users history)).Numbered :=
  foldl_invariant (P := Numbered) (numbered_start users history) (fun _ i h => h.step env i) inputs

/-! ## The flag stays set -/

/-- Every session of this number has its flag set. -/
def FlagSet (session : Nat) (srv : ChatServer) : Prop :=
  ∀ s ∈ srv.sessions, s.id = session → s.isLogin = true

/-- No flag that is set has been cleared. -/
def FlagsKept (srv srv' : ChatServer) : Prop :=
  ∀ session, FlagSet session srv → FlagSet session srv'

/-- `FlagsKept` is reflexive. -/
theorem FlagsKept.refl (srv : ChatServer) : srv.FlagsKept srv := fun _ h => h

/-- `FlagsKept` is transitive. -/
theorem FlagsKept.trans {a b c : ChatServer} (h : a.FlagsKept b) (h' : b.FlagsKept c) :
    a.FlagsKept c :=
  fun session hset => h' session (h session hset)

private theorem flagsKept_of_eq {srv srv' : ChatServer} (h : srv'.sessions = srv.sessions) :
    srv.FlagsKept srv' := by
  intro session hset s hs
  rw [h] at hs
  exact hset s hs

/-- A change of one session that keeps numbers and clears no flag. -/
theorem modify_flagsKept (srv : ChatServer) (id : Nat) {f : ChatSession → ChatSession}
    (hid : ∀ s, (f s).id = s.id) (hflag : ∀ s, s.isLogin = true → (f s).isLogin = true) :
    srv.FlagsKept (srv.modify id f) := by
  intro session hset s' hs' hid'
  obtain ⟨s, hs, rfl⟩ := List.mem_map.mp hs'
  by_cases hs' : s.id = id
  · rw [if_pos hs'] at hid' ⊢
    exact hflag s (hset s hs ((hid s).symm.trans hid'))
  · rw [if_neg hs'] at hid' ⊢
    exact hset s hs hid'

private theorem onLoginResponse_flagsKept (env : Env) (srv : ChatServer) (self : ChatSession)
    (data : Bytes) : srv.FlagsKept (srv.onLoginResponse env self data).1 :=
  onLoginResponse_keeps FlagsKept.refl FlagsKept.trans
    (fun srv id p => flagsKept_of_eq (srv.sendTo_replied env id p).sameSessions.1)
    (fun srv target => srv.modify_flagsKept target (fun _ => rfl) fun _ h => h)
    (fun srv _ _ => srv.modify_flagsKept self.id (fun _ => rfl) fun _ h => h)
    (fun srv => srv.modify_flagsKept self.id (fun _ => rfl) fun _ _ => rfl) srv data

private theorem dispatch_flagsKept (env : Env) (srv : ChatServer) (self : ChatSession)
    (p : Packet) :
    srv.FlagsKept (srv.dispatch env self p).1 :=
  dispatch_keeps (R := FlagsKept) FlagsKept.trans
    (fun srv data => srv.onLoginResponse_flagsKept env self data)
    (fun h => flagsKept_of_eq h.sameSessions.1) (fun _ _ => flagsKept_of_eq rfl)
    (fun _ _ => flagsKept_of_eq rfl)
    (fun srv => srv.modify_flagsKept self.id (fun _ => rfl) fun _ h => h) srv p

/-! ## A login that is answered sets it -/

private theorem andThen_of_returns {r : ChatServer × Bool} {next : ChatServer → ChatServer × Bool}
    (h : (andThen r next).2 = true) : andThen r next = next r.1 := by
  unfold andThen at h ⊢
  by_cases hr : r.2 = true
  · rw [if_pos hr]
  · rw [if_neg hr] at h
    exact absurd h hr

/-- The reply, if it does not throw, is followed by the assignment of the flag. -/
theorem replyLogin_sets {env : Env} {srv : ChatServer} {self : ChatSession} {data : Bytes}
    (h : (srv.replyLogin env self data).2 = true) :
    FlagSet self.id (srv.replyLogin env self data).1 := by
  unfold replyLogin at h ⊢
  rw [andThen_of_returns h]
  intro s' hs' hid
  obtain ⟨s, _, rfl⟩ := List.mem_map.mp hs'
  by_cases hown : s.id = self.id
  · rw [if_pos hown]
  · rw [if_neg hown] at hid
    exact absurd hid hown

/-- Every outcome of the login handler ends in the same reply. -/
theorem onLoginResponse_sets {env : Env} {srv : ChatServer} {self : ChatSession} {data : Bytes}
    (h : (srv.onLoginResponse env self data).2 = true) :
    FlagSet self.id (srv.onLoginResponse env self data).1 := by
  unfold onLoginResponse at h ⊢
  split at h
  · contradiction
  · dsimp only at h ⊢
    split at h
    · rename_i hwrong
      rw [if_pos hwrong]
      exact replyLogin_sets h
    · rename_i hright
      rw [if_neg hright, andThen_of_returns h]
      rw [andThen_of_returns h] at h
      exact replyLogin_sets h

private theorem returned_flagsKept (id : Nat) (r : ChatServer × Bool) :
    r.1.FlagsKept (returned id r).1 := by
  unfold returned
  split
  · exact r.1.modify_flagsKept id (fun _ => rfl) fun _ h => h
  · exact .refl r.1

private theorem dispatch_login_sets {env : Env} {srv : ChatServer} {self : ChatSession} {p : Packet}
    (hcmd : p.cmd = msgTypeLogin) (h : (srv.dispatch env self p).2 ≠ none) :
    FlagSet self.id (srv.dispatch env self p).1 := by
  unfold dispatch at h ⊢
  rw [if_pos hcmd] at h ⊢
  by_cases hreturns : (srv.onLoginResponse env self p.data).2 = true
  · exact returned_flagsKept self.id _ self.id (onLoginResponse_sets hreturns)
  · rw [returned, if_neg hreturns] at h
    exact absurd rfl h

end ChatServer

open ChatServer

/-- A process that still runs has not met an exception. -/
theorem not_none_of_conclude {r : ChatServer × Option Bool} (h : (conclude r).terminated = false) :
    r.2 ≠ none := by
  intro hnone
  rw [conclude, hnone] at h
  cases h

/-- A login request that leaves the server running has set the flag of its session. -/
theorem serverStep_login_sets {env : Env} {srv : ChatServer} {i : ServerInput} {self : ChatSession}
    {p : Packet} (h : Handles srv i self p) (hcmd : p.cmd = msgTypeLogin)
    (hlive : (serverStep env srv i).terminated = false) :
    FlagSet self.id (serverStep env srv i) := by
  rw [serverStep_of_handles h] at hlive ⊢
  have hset := dispatch_login_sets hcmd (not_none_of_conclude hlive)
  exact flagsKept_of_eq (conclude_sameSessions _).1 self.id hset

/-- No step clears the flag of a session whose number has been given out. -/
theorem serverStep_flagSet (env : Env) {srv : ChatServer} (i : ServerInput) {session : Nat}
    (hissued : session ≤ srv.sessionId) (h : FlagSet session srv) :
    FlagSet session (serverStep env srv i) := by
  by_cases hhandles : ∃ self p, Handles srv i self p
  · obtain ⟨self, p, hp⟩ := hhandles
    rw [serverStep_of_handles hp]
    have hseq := srv.modify_flagsKept self.id (f := fun s => { s with seq := p.seq })
      (fun _ => rfl) fun _ hset => hset
    have hswitch := hseq.trans (dispatch_flagsKept env _ { self with seq := p.seq } p)
    exact hswitch.trans (flagsKept_of_eq (conclude_sameSessions _).1) session h
  · rcases serverStep_of_not_handles env srv i hhandles with hstep | hstep | ⟨gone, hstep⟩ |
      ⟨id, seq, hstep⟩ <;> rw [hstep]
    · exact h
    · intro s hs hid
      rcases List.mem_append.mp hs with hold | hnew
      · exact h s hold hid
      · rw [List.mem_singleton.mp hnew] at hid
        have hnumber : srv.sessionId + 1 = session := hid
        omega
    · exact fun s hs => h s (List.mem_of_mem_filter hs)
    · exact srv.modify_flagsKept id (f := fun s => { s with seq := seq }) (fun _ => rfl)
        (fun _ hset => hset) session h

/-- A process that has ended stays as it is. -/
theorem serverStep_live {env : Env} {srv : ChatServer} {i : ServerInput}
    (h : (serverStep env srv i).terminated = false) : srv.terminated = false := by
  unfold serverStep at h
  by_cases hended : srv.terminated = true
  · rw [if_pos hended] at h
    exact h
  · exact Bool.eq_false_iff.mpr hended

/-! ## The flag of a run -/

/-- In the run of `inputs` a login request of the session has been handled. -/
def LoginHandled (env : Env) (users : List User) (history : List Bytes)
    (inputs : List ServerInput) (session : Nat) : Prop :=
  ∃ srv i self p, Visits (serverStep env) (start users history) inputs srv i ∧
    Handles srv i self p ∧ self.id = session ∧ p.cmd = msgTypeLogin

private theorem not_loginHandled_nil {env : Env} {users : List User} {history : List Bytes}
    {session : Nat} : ¬ LoginHandled env users history [] session := by
  rintro ⟨_, _, _, _, hvisits, _⟩
  exact absurd hvisits (not_visits_nil _ _ _ _)

private theorem loginHandled_concat {env : Env} {users : List User} {history : List Bytes}
    {inputs : List ServerInput} {last : ServerInput} {session : Nat} :
    LoginHandled env users history (inputs ++ [last]) session ↔
      LoginHandled env users history inputs session ∨
        ∃ self p, Handles (inputs.foldl (serverStep env) (start users history)) last self p ∧
          self.id = session ∧ p.cmd = msgTypeLogin := by
  constructor
  · rintro ⟨srv, i, self, p, hvisits, hrest⟩
    rcases visits_concat.mp hvisits with hvisits | ⟨rfl, rfl⟩
    · exact Or.inl ⟨srv, i, self, p, hvisits, hrest⟩
    · exact Or.inr ⟨self, p, hrest⟩
  · rintro (⟨srv, i, self, p, hvisits, hrest⟩ | ⟨self, p, hrest⟩)
    · exact ⟨srv, i, self, p, visits_concat.mpr (Or.inl hvisits), hrest⟩
    · exact ⟨_, last, self, p, visits_concat.mpr (Or.inr ⟨rfl, rfl⟩), hrest⟩

/-- The sessions whose login requests have been handled have numbers that were given out. -/
theorem LoginHandled.issued {env : Env} {users : List User} {history : List Bytes}
    {inputs : List ServerInput} {session : Nat}
    (h : LoginHandled env users history inputs session) :
    session ≤ (inputs.foldl (serverStep env) (start users history)).sessionId := by
  induction inputs using List.reverseRecOn with
  | nil => exact absurd h not_loginHandled_nil
  | append_singleton inputs last ih =>
    rw [List.foldl_append, List.foldl_cons, List.foldl_nil]
    refine Nat.le_trans ?_ (serverStep_sessionId_le env _ last)
    rcases loginHandled_concat.mp h with hearlier | ⟨self, p, ⟨_, _, _, _, _, hfind, _⟩, rfl, _⟩
    · exact ih hearlier
    · refine (numbered_run env users history inputs).issued self.id ?_
      exact List.mem_map_of_mem (List.mem_of_find?_eq_some hfind)

/-- While the server runs, the flag of every session whose login request has been handled is
set. -/
theorem flagSet_of_loginHandled {env : Env} {users : List User} {history : List Bytes}
    {inputs : List ServerInput} {session : Nat}
    (hlive : (inputs.foldl (serverStep env) (start users history)).terminated = false)
    (h : LoginHandled env users history inputs session) :
    FlagSet session (inputs.foldl (serverStep env) (start users history)) := by
  induction inputs using List.reverseRecOn with
  | nil => exact absurd h not_loginHandled_nil
  | append_singleton inputs last ih =>
    rw [List.foldl_append, List.foldl_cons, List.foldl_nil] at hlive ⊢
    rcases loginHandled_concat.mp h with hearlier | ⟨self, p, hhandles, rfl, hcmd⟩
    · exact serverStep_flagSet env last hearlier.issued (ih (serverStep_live hlive) hearlier)
    · exact serverStep_login_sets hhandles hcmd hlive

/-- Every flag that is set belongs to a session whose login request has been handled. -/
theorem loginHandled_of_isLogin (env : Env) (users : List User) (history : List Bytes)
    (inputs : List ServerInput) :
    ∀ s ∈ (inputs.foldl (serverStep env) (start users history)).sessions, s.isLogin = true →
      LoginHandled env users history inputs s.id := by
  induction inputs using List.reverseRecOn with
  | nil =>
    intro s hs
    cases hs
  | append_singleton inputs last ih =>
    rw [List.foldl_append, List.foldl_cons, List.foldl_nil]
    intro s hs hset
    refine loginHandled_concat.mpr ?_
    rcases (serverStep_flagsOnly env _ last).1 s hs hset with ⟨self, p, hhandles, hid, hcmd, _⟩ |
      ⟨old, hold, hsame, holdset⟩
    · exact Or.inr ⟨self, p, hhandles, hid.symm, hcmd⟩
    · rw [← hsame]
      exact Or.inl (ih old hold holdset)

/-- In every run that has not ended the process, the flag of a session is set exactly when one
of its login requests has been handled. -/
theorem isLogin_iff_loginHandled {env : Env} {users : List User} {history : List Bytes}
    {inputs : List ServerInput} {s : ChatSession}
    (hlive : (inputs.foldl (serverStep env) (start users history)).terminated = false)
    (hs : s ∈ (inputs.foldl (serverStep env) (start users history)).sessions) :
    s.isLogin = true ↔ LoginHandled env users history inputs s.id :=
  ⟨loginHandled_of_isLogin env users history inputs s hs,
    fun h => flagSet_of_loginHandled hlive h s hs rfl⟩

end ChatRoom.Chat
