import Mathlib.Data.List.Find
import Mathlib.Data.List.Nodup
import ChatRoom.Core.Run
import ChatRoom.Chat.ChatServer

/-!
# Concurrent logins

`onLoginResponse` runs on the loop of its session, so the logins of different
sessions interleave. Its steps are the password check, the search for the session
that holds the account (under `m_sessionMutex`), `makeSessionInvalid` on that
session, and the assignment of the user id. Between the search and the assignment
the account is claimed by nobody, so two logins that overlap there both end up
holding it. As long as none do, an account is held once.
-/

namespace ChatRoom.Chat

open ChatRoom.Core Net

/-- How far the handler of a session has come: the password has matched, the previous
session has been looked up, or it has been made invalid. -/
inductive LoginPhase where
  | idle
  | checked (userid : Int)
  | found (userid : Int) (target : Option Nat)
  | cleared (userid : Int)
  deriving DecidableEq, Repr

/-- The session list in its order, and for each session object its user id and its handler. -/
structure LoginWorld where
  users : List User
  sessions : List Nat
  sessionId : Nat
  userid : Nat → Int
  phase : Nat → LoginPhase

/-- A step of one handler, or a client that comes or goes. -/
inductive LoginStep where
  | connect
  | disconnect (session : Nat)
  | getUserInfoByUsername (session : Nat) (username password : Bytes)
  | getSessionByUserId (session : Nat)
  | makeSessionInvalid (session : Nat)
  | assignUserid (session : Nat)
  deriving DecidableEq, Repr

namespace LoginWorld

/-- No session is in the middle of a login. -/
def start (users : List User) : LoginWorld := ⟨users, [], 0, fun _ => 0, fun _ => .idle⟩

/-- The login of a session goes on to a phase. -/
def setPhase (w : LoginWorld) (session : Nat) (phase : LoginPhase) : LoginWorld :=
  { w with phase := Function.update w.phase session phase }

/-- The number of a session's user is assigned. -/
def setUserid (w : LoginWorld) (session : Nat) (userid : Int) : LoginWorld :=
  { w with userid := Function.update w.userid session userid }

/-- The target of a kick loses its user id. -/
def clear (w : LoginWorld) : Option Nat → LoginWorld
  | none => w
  | some target => w.setUserid target 0

end LoginWorld

open LoginWorld

/-- A session's events are handled by one loop, so a disconnect and a further packet
wait until its handler is done. -/
def loginStep (w : LoginWorld) : LoginStep → LoginWorld
  | .connect =>
    { w with
      sessions := w.sessions ++ [w.sessionId + 1]
      sessionId := w.sessionId + 1
      userid := Function.update w.userid (w.sessionId + 1) 0
      phase := Function.update w.phase (w.sessionId + 1) .idle }
  | .disconnect session =>
    if w.phase session = .idle then
      { w with sessions := w.sessions.filter fun s => s ≠ session }
    else w
  | .getUserInfoByUsername session username password =>
    let cachedUser := getUserInfoByUsername w.users username
    if session ∈ w.sessions ∧ w.phase session = .idle ∧ cachedUser.password = password then
      w.setPhase session (.checked cachedUser.userid)
    else w
  | .getSessionByUserId session =>
    match w.phase session with
    | .checked userid =>
      w.setPhase session (.found userid (w.sessions.find? fun s => w.userid s = userid))
    | _ => w
  | .makeSessionInvalid session =>
    match w.phase session with
    | .found userid target => (w.clear target).setPhase session (.cleared userid)
    | _ => w
  | .assignUserid session =>
    match w.phase session with
    | .cleared userid => (w.setUserid session userid).setPhase session .idle
    | _ => w

/-- No login is half way. -/
def AllIdle (w : LoginWorld) : Prop := ∀ s ∈ w.sessions, w.phase s = .idle

/-- Any user id above zero is held by at most one session of the list. -/
def SingleLogin (w : LoginWorld) : Prop :=
  ∀ a ∈ w.sessions, ∀ b ∈ w.sessions, 0 < w.userid a → w.userid a = w.userid b → a = b

instance (w : LoginWorld) : Decidable (AllIdle w) :=
  inferInstanceAs (Decidable (∀ s ∈ w.sessions, w.phase s = .idle))

instance (w : LoginWorld) : Decidable (SingleLogin w) :=
  inferInstanceAs (Decidable (∀ a ∈ w.sessions, ∀ b ∈ w.sessions,
    0 < w.userid a → w.userid a = w.userid b → a = b))

/-- The handler is between the search and the assignment for the account. -/
def LoginPhase.InWindow (phase : LoginPhase) (userid : Int) : Prop :=
  (∃ target, phase = .found userid target) ∨ phase = .cleared userid

/-- A search is made only when no other session is in the window of the same account. -/
def NoOverlap (w : LoginWorld) (i : LoginStep) : Prop :=
  ∀ session userid, i = .getSessionByUserId session → w.phase session = .checked userid →
    0 < userid → ∀ other ∈ w.sessions, ¬ (w.phase other).InWindow userid

/-- The invariant of runs without overlap: while an account is in a window, only the
target of the kick can hold it. -/
structure Claimed (w : LoginWorld) : Prop where
  fresh : ∀ s ∈ w.sessions, s ≤ w.sessionId
  live : ∀ s, w.phase s ≠ .idle → s ∈ w.sessions
  single : SingleLogin w
  found : ∀ s userid target, w.phase s = .found userid target → 0 < userid →
    ∀ a ∈ w.sessions, w.userid a = userid → target = some a
  cleared : ∀ s userid, w.phase s = .cleared userid → 0 < userid →
    ∀ a ∈ w.sessions, w.userid a ≠ userid
  window : ∀ s t userid, 0 < userid → (w.phase s).InWindow userid → (w.phase t).InWindow userid →
    s = t

private theorem start_claimed (users : List User) : Claimed (LoginWorld.start users) where
  fresh := by
    intro s hs
    cases hs
  live := by
    intro s hs
    exact absurd rfl hs
  single := by
    intro a ha
    cases ha
  found := by
    intro s userid target hs
    cases hs
  cleared := by
    intro s userid hs
    cases hs
  window := by
    rintro s t userid _ (⟨target, hs⟩ | hs)
    · cases hs
    · cases hs

/-! ## Steps that take something away -/

section

variable {w w' : LoginWorld}

/-- The invariant is kept when no account is newly held and no window is newly entered. -/
theorem Claimed.of_less (h : Claimed w) (hfresh : ∀ s ∈ w'.sessions, s ≤ w'.sessionId)
    (hlive : ∀ s, w'.phase s ≠ .idle → s ∈ w'.sessions)
    (hheld : ∀ a ∈ w'.sessions, 0 < w'.userid a → a ∈ w.sessions ∧ w.userid a = w'.userid a)
    (hfound : ∀ s userid target, w'.phase s = .found userid target →
      w.phase s = .found userid target)
    (hcleared : ∀ s userid, w'.phase s = .cleared userid → w.phase s = .cleared userid) :
    Claimed w' := by
  have hwindow : ∀ s userid, (w'.phase s).InWindow userid → (w.phase s).InWindow userid := by
    rintro s userid (⟨target, hs⟩ | hs)
    · exact Or.inl ⟨target, hfound s userid target hs⟩
    · exact Or.inr (hcleared s userid hs)
  refine ⟨hfresh, hlive, ?_, ?_, ?_, ?_⟩
  · intro a ha b hb hpos hab
    obtain ⟨ha, hauser⟩ := hheld a ha hpos
    obtain ⟨hb, hbuser⟩ := hheld b hb (hab ▸ hpos)
    exact h.single a ha b hb (hauser ▸ hpos) (by rw [hauser, hbuser, hab])
  · intro s userid target hs hpos a ha hauser
    obtain ⟨ha, hold⟩ := hheld a ha (hauser ▸ hpos)
    exact h.found s userid target (hfound s userid target hs) hpos a ha (hold.trans hauser)
  · intro s userid hs hpos a ha hauser
    obtain ⟨ha, hold⟩ := hheld a ha (hauser ▸ hpos)
    exact h.cleared s userid (hcleared s userid hs) hpos a ha (hold.trans hauser)
  · intro s t userid hpos hs ht
    exact h.window s t userid hpos (hwindow s userid hs) (hwindow t userid ht)

private theorem Claimed.connect (h : Claimed w) : Claimed (loginStep w .connect) := by
  have hphase : ∀ s q, (loginStep w .connect).phase s = q → q ≠ .idle → w.phase s = q := by
    intro s q hs hq
    simp only [loginStep, Function.update_apply] at hs
    split at hs
    · exact absurd hs.symm hq
    · exact hs
  refine h.of_less ?_ ?_ ?_ ?_ ?_
  · intro s hs
    rcases List.mem_append.mp hs with hold | hnew
    · exact Nat.le_succ_of_le (h.fresh s hold)
    · exact Nat.le_of_eq (List.mem_singleton.mp hnew)
  · intro s hs
    exact List.mem_append_left _ (h.live s (by rw [hphase s _ rfl hs]; exact hs))
  · intro a ha hpos
    simp only [loginStep, Function.update_apply] at hpos ⊢
    rcases List.mem_append.mp ha with hold | hnew
    · have hne : a ≠ w.sessionId + 1 := by
        have := h.fresh a hold
        omega
      rw [if_neg hne]
      exact ⟨hold, rfl⟩
    · rw [if_pos (List.mem_singleton.mp hnew)] at hpos
      omega
  · intro s userid target hs
    exact hphase s _ hs (by intro heq; cases heq)
  · intro s userid hs
    exact hphase s _ hs (by intro heq; cases heq)

private theorem Claimed.disconnect (h : Claimed w) (session : Nat) :
    Claimed (loginStep w (.disconnect session)) := by
  simp only [loginStep]
  split
  · next hidle =>
    refine h.of_less ?_ ?_ ?_ (fun _ _ _ hs => hs) (fun _ _ hs => hs)
    · intro s hs
      exact h.fresh s (List.mem_of_mem_filter hs)
    · intro s hs
      refine List.mem_filter.mpr ⟨h.live s hs, decide_eq_true ?_⟩
      rintro rfl
      exact hs hidle
    · intro a ha _
      exact ⟨List.mem_of_mem_filter ha, rfl⟩
  · exact h

/-- A handler moves to a phase outside the window. -/
theorem Claimed.setPhase (h : Claimed w) {session : Nat} {phase : LoginPhase}
    (hmem : session ∈ w.sessions) (hfound : ∀ userid target, phase ≠ .found userid target)
    (hcleared : ∀ userid, phase ≠ .cleared userid) : Claimed (w.setPhase session phase) := by
  have hother : ∀ s q, (w.setPhase session phase).phase s = q → phase ≠ q → w.phase s = q := by
    intro s q hs hq
    simp only [LoginWorld.setPhase, Function.update_apply] at hs
    split at hs
    · exact absurd hs hq
    · exact hs
  refine h.of_less h.fresh ?_ (fun _ ha _ => ⟨ha, rfl⟩)
    (fun s userid target hs => hother s _ hs (hfound userid target))
    (fun s userid hs => hother s _ hs (hcleared userid))
  intro s hs
  by_cases hsame : s = session
  · rw [hsame]
    exact hmem
  · simp only [LoginWorld.setPhase, Function.update_of_ne hsame] at hs
    exact h.live s hs

/-- The target of a kick loses its account. -/
theorem Claimed.clear (h : Claimed w) (target : Option Nat) : Claimed (w.clear target) := by
  cases target with
  | none => exact h
  | some target =>
    refine h.of_less h.fresh h.live ?_ (fun _ _ _ hs => hs) (fun _ _ hs => hs)
    intro a ha hpos
    simp only [LoginWorld.clear, setUserid, Function.update_apply] at hpos ⊢
    split at hpos
    · omega
    · next hne =>
      rw [if_neg hne]
      exact ⟨ha, rfl⟩

/-! ## Steps through the window -/

private theorem LoginWorld.clear_sessions (w : LoginWorld) (target : Option Nat) :
    (w.clear target).sessions = w.sessions := by
  cases target <;> rfl

private theorem LoginPhase.InWindow.ne_idle {phase : LoginPhase} {userid : Int}
    (h : phase.InWindow userid) : phase ≠ .idle := by
  rintro rfl
  rcases h with ⟨target, h⟩ | h <;> cases h

private theorem not_inWindow {phase : LoginPhase} {userid : Int} (userid' : Int)
    (h : phase = .idle ∨ phase = .checked userid') : ¬ phase.InWindow userid := by
  rintro (⟨target, hin⟩ | hin) <;> rcases h with rfl | rfl <;> cases hin

private theorem setPhase_self (w : LoginWorld) (session : Nat) (phase : LoginPhase) :
    (w.setPhase session phase).phase session = phase :=
  Function.update_self ..

private theorem setPhase_of_ne (w : LoginWorld) {s session : Nat} (h : s ≠ session)
    (phase : LoginPhase) :
    (w.setPhase session phase).phase s = w.phase s :=
  Function.update_of_ne h ..

/-- The search finds the one session that holds the account. -/
theorem Claimed.find_eq (h : Claimed w) {userid : Int} (hpos : 0 < userid) {a : Nat}
    (ha : a ∈ w.sessions) (hauser : w.userid a = userid) :
    (w.sessions.find? fun s => w.userid s = userid) = some a := by
  have hsome : (w.sessions.find? fun s => w.userid s = userid).isSome :=
    List.find?_isSome.mpr ⟨a, ha, decide_eq_true hauser⟩
  obtain ⟨b, hb⟩ := Option.isSome_iff_exists.mp hsome
  have hbtrue := List.find?_some hb
  have hbuser : w.userid b = userid := of_decide_eq_true hbtrue
  have hbmem := List.mem_of_find?_eq_some hb
  rw [hb, h.single b hbmem a ha (hbuser ▸ hpos) (hbuser.trans hauser.symm)]

/-- A handler enters the window of an account that nobody else is in, or moves on inside it. -/
theorem Claimed.enter (h : Claimed w) {session : Nat} {userid : Int} {phase : LoginPhase}
    (hmem : session ∈ w.sessions) (hphase : phase.InWindow userid)
    (halone : 0 < userid → ∀ other, other ≠ session → ¬ (w.phase other).InWindow userid)
    (hfound : ∀ target, phase = .found userid target → 0 < userid →
      ∀ a ∈ w.sessions, w.userid a = userid → target = some a)
    (hcleared : phase = .cleared userid → 0 < userid → ∀ a ∈ w.sessions, w.userid a ≠ userid) :
    Claimed (w.setPhase session phase) := by
  have hsame : ∀ userid', phase.InWindow userid' → userid' = userid := by
    rintro userid' hin
    rcases hphase with ⟨target, rfl⟩ | rfl <;> rcases hin with ⟨target', hin⟩ | hin <;> cases hin <;> rfl
  refine ⟨h.fresh, ?_, h.single, ?_, ?_, ?_⟩
  · intro s hs
    by_cases heq : s = session
    · rw [heq]
      exact hmem
    · rw [setPhase_of_ne w heq] at hs
      exact h.live s hs
  · intro s userid' target hs hpos
    by_cases heq : s = session
    · rw [heq, setPhase_self] at hs
      obtain rfl := hsame userid' (Or.inl ⟨target, hs⟩)
      exact hfound target hs hpos
    · rw [setPhase_of_ne w heq] at hs
      exact h.found s userid' target hs hpos
  · intro s userid' hs hpos
    by_cases heq : s = session
    · rw [heq, setPhase_self] at hs
      obtain rfl := hsame userid' (Or.inr hs)
      exact hcleared hs hpos
    · rw [setPhase_of_ne w heq] at hs
      exact h.cleared s userid' hs hpos
  · intro s t userid' hpos hs ht
    by_cases hs' : s = session <;> by_cases ht' : t = session
    · rw [hs', ht']
    · rw [hs', setPhase_self] at hs
      rw [setPhase_of_ne w ht'] at ht
      obtain rfl := hsame userid' hs
      exact absurd ht (halone hpos t ht')
    · rw [setPhase_of_ne w hs'] at hs
      rw [ht', setPhase_self] at ht
      obtain rfl := hsame userid' ht
      exact absurd hs (halone hpos s hs')
    · rw [setPhase_of_ne w hs'] at hs
      rw [setPhase_of_ne w ht'] at ht
      exact h.window s t userid' hpos hs ht

private theorem Claimed.getSessionByUserId (h : Claimed w) {session : Nat}
    (hok : NoOverlap w (.getSessionByUserId session)) :
    Claimed (loginStep w (.getSessionByUserId session)) := by
  simp only [loginStep]
  split
  · next userid hphase =>
    have hmem := h.live session (by rw [hphase]; intro heq; cases heq)
    refine h.enter hmem (Or.inl ⟨_, rfl⟩) ?_ ?_ (by intro heq; cases heq)
    · intro hpos other _ hin
      exact hok session userid rfl hphase hpos other (h.live other hin.ne_idle) hin
    · intro target heq hpos a ha hauser
      cases heq
      exact h.find_eq hpos ha hauser
  · exact h

/-- Once the target is cleared, nobody holds the account. -/
theorem Claimed.makeSessionInvalid (h : Claimed w) (session : Nat) :
    Claimed (loginStep w (.makeSessionInvalid session)) := by
  simp only [loginStep]
  split
  · next userid target hphase =>
    have hin : (w.phase session).InWindow userid := Or.inl ⟨target, hphase⟩
    have hsessions := w.clear_sessions target
    have hphases : (w.clear target).phase = w.phase := by cases target <;> rfl
    refine (h.clear target).enter (by rw [hsessions]; exact h.live session hin.ne_idle)
      (Or.inr rfl) ?_ (by intro _ heq; cases heq) ?_
    · intro hpos other hne hother
      rw [hphases] at hother
      exact hne (h.window other session userid hpos hother hin)
    · intro _ hpos a ha hauser
      rw [hsessions] at ha
      cases target with
      | none => cases h.found session userid none hphase hpos a ha hauser
      | some target =>
        simp only [LoginWorld.clear, setUserid, Function.update_apply] at hauser
        split at hauser
        · omega
        · next hne =>
          exact hne (Option.some.inj (h.found session userid _ hphase hpos a ha hauser)).symm
  · exact h

/-- The assignment takes an account that nobody holds. -/
theorem Claimed.assignUserid (h : Claimed w) (session : Nat) :
    Claimed (loginStep w (.assignUserid session)) := by
  simp only [loginStep]
  split
  · next userid hphase =>
    have hin : (w.phase session).InWindow userid := Or.inr hphase
    have hphases : ∀ s, ((w.setUserid session userid).setPhase session .idle).phase s ≠ .idle →
        s ≠ session ∧ ((w.setUserid session userid).setPhase session .idle).phase s = w.phase s := by
      intro s hs
      by_cases heq : s = session
      · rw [heq, setPhase_self] at hs
        exact absurd rfl hs
      · exact ⟨heq, setPhase_of_ne _ heq _⟩
    -- The new holder against the others: they neither hold the account nor are in its window.
    have hheld : ∀ a ∈ w.sessions, ∀ userid', 0 < userid' →
        Function.update w.userid session userid a = userid' →
          (a = session ∧ userid' = userid) ∨ (a ≠ session ∧ w.userid a = userid') := by
      intro a _ userid' _ hauser
      rw [Function.update_apply] at hauser
      split at hauser
      · next heq => exact Or.inl ⟨heq, hauser.symm⟩
      · next hne => exact Or.inr ⟨hne, hauser⟩
    have hwindow : ∀ s userid', 0 < userid' → s ≠ session → (w.phase s).InWindow userid' →
        userid' ≠ userid := by
      rintro s userid' hpos hne hs rfl
      exact hne (h.window s session userid' hpos hs hin)
    refine ⟨h.fresh, ?_, ?_, ?_, ?_, ?_⟩
    · intro s hs
      exact h.live s (by rw [← (hphases s hs).2]; exact hs)
    · intro a ha b hb hpos hab
      rcases hheld a ha _ hpos rfl with ⟨haeq, hauser⟩ | ⟨hane, hauser⟩ <;>
        rcases hheld b hb _ hpos hab.symm with ⟨hbeq, hbuser⟩ | ⟨hbne, hbuser⟩
      · rw [haeq, hbeq]
      · exact absurd (hbuser.trans hauser) (h.cleared session userid hphase (hauser ▸ hpos) b hb)
      · exact absurd (hauser.trans hbuser) (h.cleared session userid hphase (hbuser ▸ hpos) a ha)
      · exact h.single a ha b hb (hauser ▸ hpos) (hauser.trans hbuser.symm)
    · intro s userid' target hs hpos a ha hauser
      obtain ⟨hne, hold⟩ := hphases s (by rw [hs]; intro heq; cases heq)
      rw [hold] at hs
      rcases hheld a ha userid' hpos hauser with ⟨_, hsame⟩ | ⟨_, hauser⟩
      · exact absurd hsame (hwindow s userid' hpos hne (Or.inl ⟨target, hs⟩))
      · exact h.found s userid' target hs hpos a ha hauser
    · intro s userid' hs hpos a ha hauser
      obtain ⟨hne, hold⟩ := hphases s (by rw [hs]; intro heq; cases heq)
      rw [hold] at hs
      rcases hheld a ha userid' hpos hauser with ⟨_, hsame⟩ | ⟨_, hauser⟩
      · exact absurd hsame (hwindow s userid' hpos hne (Or.inr hs))
      · exact h.cleared s userid' hs hpos a ha hauser
    · intro s t userid' hpos hs ht
      rw [(hphases s hs.ne_idle).2] at hs
      rw [(hphases t ht.ne_idle).2] at ht
      exact h.window s t userid' hpos hs ht
  · exact h

/-- Every step without overlap keeps the invariant. -/
theorem Claimed.step (h : Claimed w) (i : LoginStep) (hok : NoOverlap w i) :
    Claimed (loginStep w i) := by
  cases i with
  | connect => exact h.connect
  | disconnect session => exact h.disconnect session
  | getUserInfoByUsername session username password =>
    simp only [loginStep]
    split
    · next hidle =>
      exact h.setPhase hidle.1 (by intro _ _ heq; cases heq) (by intro _ heq; cases heq)
    · exact h
  | getSessionByUserId session => exact h.getSessionByUserId hok
  | makeSessionInvalid session => exact h.makeSessionInvalid session
  | assignUserid session => exact h.assignUserid session

end

/-- In every interleaving in which no two logins of an account overlap between the search
and the assignment, each account is held by at most one session. -/
theorem single_login_of_no_overlap (users : List User) (steps : List LoginStep)
    (hok : ∀ w i, Visits loginStep (LoginWorld.start users) steps w i → NoOverlap w i) :
    SingleLogin (steps.foldl loginStep (LoginWorld.start users)) := by
  have hclaimed : Claimed (steps.foldl loginStep (LoginWorld.start users)) :=
    foldl_invariant_of_visits (start_claimed users) steps fun w i hv h => h.step i (hok w i hv)
  exact hclaimed.single

/-- One login after the other on the same account meets the condition. -/
theorem single_login_in_turn :
    SingleLogin ([.connect, .connect, .getUserInfoByUsername 1 (text "amy") (text "a1"),
      .getSessionByUserId 1, .makeSessionInvalid 1, .assignUserid 1,
      .getUserInfoByUsername 2 (text "amy") (text "a1"), .getSessionByUserId 2,
      .makeSessionInvalid 2, .assignUserid 2].foldl loginStep
        (LoginWorld.start [⟨1, text "amy", text "a1"⟩])) := by
  refine single_login_of_no_overlap _ _ fun w i hv => ?_
  intro session userid hi hphase _ other hother hin
  simp only [visits_cons, not_visits_nil, or_false] at hv
  rcases hv with ⟨rfl, rfl⟩ | ⟨rfl, rfl⟩ | ⟨rfl, rfl⟩ | ⟨rfl, rfl⟩ | ⟨rfl, rfl⟩ | ⟨rfl, rfl⟩ |
    ⟨rfl, rfl⟩ | ⟨rfl, rfl⟩ | ⟨rfl, rfl⟩ | ⟨rfl, rfl⟩ <;> cases hi
  all_goals
    refine absurd hin (not_inWindow 1 ?_)
    clear hin
    revert other
    decide +kernel

/-- Two searches come before either assignment, and both sessions hold the account. -/
theorem overlapping_logins_share_account :
    let w := [.connect, .connect, .getUserInfoByUsername 1 (text "amy") (text "a1"),
      .getUserInfoByUsername 2 (text "amy") (text "a1"), .getSessionByUserId 1,
      .getSessionByUserId 2, .makeSessionInvalid 1, .makeSessionInvalid 2, .assignUserid 1,
      .assignUserid 2].foldl loginStep (LoginWorld.start [⟨1, text "amy", text "a1"⟩])
    AllIdle w ∧ ¬ SingleLogin w := by
  decide +kernel

/-! ## The steps are those of the handler -/

namespace ChatServer

/-- The session list and the user ids of a server between two packets. -/
def world (srv : ChatServer) : LoginWorld where
  users := srv.users
  sessions := srv.sessions.map fun s => s.id
  sessionId := srv.sessionId
  userid n := ((srv.find n).map fun s => s.userid).getD 0
  phase _ := .idle

private theorem find_modify (srv : ChatServer) (id n : Nat) {f : ChatSession → ChatSession}
    (hid : ∀ s, (f s).id = s.id) :
    (srv.modify id f).find n = (srv.find n).map fun s => if s.id = id then f s else s := by
  have hids : ∀ s : ChatSession, (if s.id = id then f s else s).id = s.id := by
    intro s
    split
    · exact hid s
    · rfl
  rw [find, modify, List.find?_map, find]
  congr 1
  refine List.find?_congr fun s _ => ?_
  simp only [Function.comp_apply, hids]

private theorem map_id_modify (srv : ChatServer) (id : Nat) {f : ChatSession → ChatSession}
    (hid : ∀ s, (f s).id = s.id) :
    ((srv.modify id f).sessions.map fun s => s.id) = srv.sessions.map fun s => s.id := by
  simp only [modify, List.map_map]
  refine List.map_congr_left fun s _ => ?_
  simp only [Function.comp_apply]
  split
  · exact hid s
  · rfl

private theorem world_modify_of_userid (srv : ChatServer) (id : Nat) {f : ChatSession → ChatSession}
    (hid : ∀ s, (f s).id = s.id) (huser : ∀ s, (f s).userid = s.userid) :
    (srv.modify id f).world = srv.world := by
  unfold world
  rw [srv.map_id_modify id hid]
  congr 1
  funext n
  rw [srv.find_modify id n hid, Option.map_map]
  congr 2
  funext s
  simp only [Function.comp_apply]
  split
  · exact huser s
  · rfl

/-- Writing a user id into a session of the list is the write of the step. -/
theorem world_setUserid (srv : ChatServer) {id : Nat} {userid : Int}
    {f : ChatSession → ChatSession} (hid : ∀ s, (f s).id = s.id)
    (huser : ∀ s, (f s).userid = userid) (hmem : (srv.find id).isSome = true) :
    (srv.modify id f).world = srv.world.setUserid id userid := by
  unfold world setUserid
  rw [srv.map_id_modify id hid]
  congr 1
  funext n
  rw [srv.find_modify id n hid, Option.map_map, Function.update_apply]
  obtain ⟨self, hself⟩ := Option.isSome_iff_exists.mp hmem
  by_cases hn : n = id
  · rw [if_pos hn, hn, hself, Option.map_some, Option.getD_some, Function.comp_apply,
      if_pos (find_id hself), huser]
  · rw [if_neg hn]
    dsimp only
    cases hfind : srv.find n with
    | none => rfl
    | some other =>
      have hne : other.id ≠ id := by
        rw [find_id hfind]
        exact hn
      rw [Option.map_some, Option.getD_some, Function.comp_apply, if_neg hne,
        Option.map_some, Option.getD_some]

private theorem world_makeSessionInvalid {srv : ChatServer} {id : Nat} (by_ : Nat)
    (hmem : (srv.find id).isSome = true) :
    (srv.makeSessionInvalid id by_).world = srv.world.setUserid id 0 :=
  srv.world_setUserid (f := fun s => { s with userid := 0 }) (fun _ => rfl) (fun _ => rfl) hmem

private theorem world_recordUser {srv : ChatServer} {id : Nat} (userid : Int) (username : Bytes)
    (hmem : (srv.find id).isSome = true) :
    (srv.recordUser id userid username).world = srv.world.setUserid id userid :=
  srv.world_setUserid (f := fun s => { s with userid := userid, username := username })
    (fun _ => rfl) (fun _ => rfl) hmem

private theorem find_isSome_iff {srv : ChatServer} {id : Nat} :
    (srv.find id).isSome = true ↔ id ∈ srv.world.sessions := by
  rw [find, List.find?_isSome, world, List.mem_map]
  simp only [decide_eq_true_eq]

private theorem find_of_mem {srv : ChatServer} (hids : (srv.sessions.map fun s => s.id).Nodup)
    {s : ChatSession} (hs : s ∈ srv.sessions) : srv.find s.id = some s := by
  have hsome : (srv.find s.id).isSome := List.find?_isSome.mpr ⟨s, hs, decide_eq_true rfl⟩
  obtain ⟨t, ht⟩ := Option.isSome_iff_exists.mp hsome
  rw [ht, List.inj_on_of_nodup_map hids (List.mem_of_find?_eq_some ht) hs (find_id ht)]

/-- The search over the session list finds the session the handler finds. -/
theorem world_find {srv : ChatServer} (hids : (srv.sessions.map fun s => s.id).Nodup)
    (userid : Int) :
    (srv.world.sessions.find? fun s => srv.world.userid s = userid) =
      (getSessionByUserId srv.sessions userid).map fun s => s.id := by
  rw [world, List.find?_map, getSessionByUserId]
  congr 1
  refine List.find?_congr fun s hs => ?_
  simp only [Function.comp_apply, find_of_mem hids hs, Option.map_some, Option.getD_some]

private theorem world_sendTo (env : Env) (srv : ChatServer) (id : Nat) (p : Packet) :
    (srv.sendTo env id p).1.world = srv.world := by
  unfold sendTo
  split <;> rfl

private theorem find_sendTo (env : Env) (srv : ChatServer) (id n : Nat) (p : Packet) :
    (srv.sendTo env id p).1.find n = srv.find n := by
  unfold sendTo
  split <;> rfl

private theorem andThen_done {r : ChatServer × Bool} {next : ChatServer → ChatServer × Bool}
    (h : (andThen r next).2 = true) : r.2 = true ∧ andThen r next = next r.1 := by
  unfold andThen at h ⊢
  split at h
  · next hr => exact ⟨hr, if_pos hr⟩
  · next hr => exact absurd h hr

private theorem world_replyLogin {env : Env} {srv : ChatServer} {self : ChatSession} {data : Bytes}
    (h : (srv.replyLogin env self data).2 = true) :
    (srv.replyLogin env self data).1.world = srv.world := by
  obtain ⟨_, hnext⟩ := andThen_done h
  rw [replyLogin, hnext]
  exact (world_modify_of_userid (f := fun s => { s with isLogin := true }) _ self.id
    (fun _ => rfl) fun _ => rfl).trans (world_sendTo ..)

private theorem world_kickPrevious {env : Env} {srv : ChatServer} {self : ChatSession}
    {userid : Int}
    (hids : (srv.sessions.map fun s => s.id).Nodup)
    (h : (srv.kickPrevious env self userid).2 = true) :
    (srv.kickPrevious env self userid).1.world =
      srv.world.clear (srv.world.sessions.find? fun s => srv.world.userid s = userid) := by
  rw [world_find hids]
  unfold kickPrevious at h ⊢
  cases htarget : getSessionByUserId srv.sessions userid with
  | none => rfl
  | some target =>
    rw [htarget] at h
    obtain ⟨_, hnext⟩ := andThen_done h
    have hfind := find_of_mem hids (List.mem_of_find?_eq_some htarget)
    have hsome : ((srv.sendTo env target.id ⟨msgTypeKickuser, self.seq, []⟩).1.find
        target.id).isSome = true := by
      rw [find_sendTo, hfind]
      rfl
    dsimp only
    rw [hnext]
    rw [world_makeSessionInvalid self.id hsome, world_sendTo]
    rfl

end ChatServer

/-- The four steps of one login in a row: the kick and the assignment. -/
theorem foldl_login_steps (w : LoginWorld) (hidle : w.phase = fun _ => .idle) {session : Nat}
    (hmem : session ∈ w.sessions) {username password : Bytes}
    (hpassword : (getUserInfoByUsername w.users username).password = password) :
    [.getUserInfoByUsername session username password, .getSessionByUserId session,
        .makeSessionInvalid session, .assignUserid session].foldl loginStep w =
      (w.clear (w.sessions.find? fun s =>
        w.userid s = (getUserInfoByUsername w.users username).userid)).setUserid session
          (getUserInfoByUsername w.users username).userid := by
  have hphase : w.phase session = .idle := by rw [hidle]
  have hchecked : loginStep w (.getUserInfoByUsername session username password) =
      w.setPhase session (.checked (getUserInfoByUsername w.users username).userid) := by
    simp only [loginStep]
    rw [if_pos ⟨hmem, hphase, hpassword⟩]
  generalize getUserInfoByUsername w.users username = cachedUser at hchecked ⊢
  generalize htarget : (w.sessions.find? fun s => w.userid s = cachedUser.userid) = target
  simp only [List.foldl_cons, List.foldl_nil]
  rw [hchecked]
  have hfound : loginStep (w.setPhase session (.checked cachedUser.userid))
      (.getSessionByUserId session) = w.setPhase session (.found cachedUser.userid target) := by
    simp only [loginStep, setPhase_self]
    rw [← htarget]
    simp only [setPhase, Function.update_idem]
    rfl
  have hcleared : loginStep (w.setPhase session (.found cachedUser.userid target))
      (.makeSessionInvalid session) =
        (w.clear target).setPhase session (.cleared cachedUser.userid) := by
    simp only [loginStep, setPhase_self]
    cases target <;> simp only [clear, setUserid, setPhase, Function.update_idem]
  rw [hfound, hcleared]
  simp only [loginStep, setPhase_self]
  have hidle' : Function.update w.phase session .idle = w.phase := by
    rw [← hphase, Function.update_eq_self]
  cases target <;>
    simp only [clear, setUserid, setPhase, Function.update_idem, hidle']

open ChatServer in
/-- A login handled without interruption is the run of its four steps. -/
theorem world_onLoginResponse {env : Env} {srv : ChatServer} {self : ChatSession}
    {data username password : Bytes} (hids : (srv.sessions.map fun s => s.id).Nodup)
    (hself : srv.find self.id = some self)
    (hrequest : loginRequest env.json data = some (username, password))
    (hdone : (srv.onLoginResponse env self data).2 = true) :
    (srv.onLoginResponse env self data).1.world =
      [.getUserInfoByUsername self.id username password, .getSessionByUserId self.id,
        .makeSessionInvalid self.id, .assignUserid self.id].foldl loginStep srv.world := by
  rw [onLoginResponse, hrequest] at hdone ⊢
  dsimp only at hdone ⊢
  by_cases hpassword : (getUserInfoByUsername srv.users username).password = password
  · rw [if_neg (not_not.mpr hpassword)] at hdone ⊢
    obtain ⟨hkick, hnext⟩ := andThen_done hdone
    rw [hnext] at hdone ⊢
    have hmem : self.id ∈ srv.world.sessions :=
      List.mem_map.mpr ⟨self, List.mem_of_find?_eq_some hself, rfl⟩
    have hsome : ((srv.kickPrevious env self
        (getUserInfoByUsername srv.users username).userid).1.find self.id).isSome = true := by
      rw [find_isSome_iff, world_kickPrevious hids hkick, clear_sessions]
      exact hmem
    rw [world_replyLogin hdone, foldl_login_steps srv.world rfl hmem hpassword,
      world_recordUser _ _ hsome, world_kickPrevious hids hkick]
    rfl
  · rw [if_pos hpassword] at hdone ⊢
    have hrefused : loginStep srv.world (.getUserInfoByUsername self.id username password) =
        srv.world := by
      simp only [loginStep]
      exact if_neg fun h => hpassword h.2.2
    rw [world_replyLogin hdone, List.foldl_cons, hrefused]
    rfl

end ChatRoom.Chat
