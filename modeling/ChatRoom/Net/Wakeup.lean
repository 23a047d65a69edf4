import Mathlib.Logic.Function.Iterate
import ChatRoom.Net.LoopQuit

/-!
# Waking a loop up

`EventLoop::loop` with its eventfd. `queueInLoop` and `quit` write to it when they are called
by another thread, or by a functor that `doOtherTasks` runs; `poll` returns at once when it has
been written to, and otherwise when another descriptor is ready or its time is up. The tasks
and the phases are those of `LoopRun`.
-/

namespace ChatRoom.Net

open ChatRoom.Core

/-- Who has called `queueInLoop`: the thread of the loop before `loop`, a callback of the loop
in one of its phases, or another thread. -/
inductive Origin where
  | entry
  | here (phase : LoopPhase)
  | elsewhere
  deriving DecidableEq, Repr

/-- An `EventLoop` with its eventfd. -/
structure WakeupLoop where
  run : LoopRun
  /-- The counter of `m_wakeupFd`. -/
  counter : Nat
  /-- `poll` has returned the wakeup channel, and its `handleRead` has not run yet. -/
  active : Bool
  /-- The functor being run has queued another one and is about to write to the eventfd. -/
  due : Bool
  /-- Calls of other threads that are about to write to the eventfd. -/
  calls : Nat
  /-- The origins of the calls of `queueInLoop`, in order. -/
  origins : List Origin
  quitHere : Bool
  quitElsewhere : Bool
  deriving DecidableEq, Repr

/-- A step of the thread of the loop, told whether anything but the eventfd lets `poll` return;
a call by a callback of the loop; and the two halves of a call by another thread. -/
inductive LoopEvent where
  | own (ready : Bool)
  | queueHere
  | quitHere
  | queueElsewhere
  | quitElsewhere
  | wakeup
  deriving DecidableEq, Repr

/-- Callbacks are run in this phase. -/
def LoopPhase.CallsBack (phase : LoopPhase) : Prop :=
  phase = .doTimer ∨ phase = .handleEvents ∨ phase = .runFunctors ∨ phase = .frameFunctor

instance (phase : LoopPhase) : Decidable phase.CallsBack :=
  inferInstanceAs (Decidable (_ ∨ _ ∨ _ ∨ _))

namespace WakeupLoop

/-- `loop` is entered with `n` tasks that its own thread has queued. -/
def enter (n : Nat) : WakeupLoop :=
  ⟨LoopRun.enter n, 0, false, false, 0, List.replicate n .entry, false, false⟩

/-- A functor is queued, with who has queued it. -/
def queueInLoop (s : WakeupLoop) (origin : Origin) : WakeupLoop :=
  { s with run := s.run.queueInLoop, origins := s.origins ++ [origin] }

/-- The next step of the thread of the loop. -/
def own (s : WakeupLoop) (ready : Bool) : WakeupLoop :=
  if s.due then { s with counter := s.counter + 1, due := false }
  else if s.run.phase = .poll then
    if 0 < s.counter ∨ ready then
      { s with run := s.run.advance, active := decide (0 < s.counter) }
    else s
  else if s.run.phase = .handleEvents ∧ s.active then { s with counter := 0, active := false }
  else { s with run := s.run.advance }

end WakeupLoop

open WakeupLoop in
/-- A step of the loop's own thread or of another one. -/
def eventLoopStep (s : WakeupLoop) : LoopEvent → WakeupLoop
  | .own ready => s.own ready
  | .queueHere =>
    if s.run.phase.CallsBack ∧ ¬ s.due then
      -- `m_doingOtherTasks` is set around the functors.
      { s.queueInLoop (.here s.run.phase) with due := decide (s.run.phase = .runFunctors) }
    else s
  | .quitHere =>
    if s.run.phase.CallsBack ∧ ¬ s.due then
      { s with run := { s.run with quit := true }, quitHere := true }
    else s
  | .queueElsewhere => { s.queueInLoop .elsewhere with calls := s.calls + 1 }
  | .quitElsewhere =>
    { s with run := { s.run with quit := true }, quitElsewhere := true, calls := s.calls + 1 }
  | .wakeup =>
    if 0 < s.calls then { s with calls := s.calls - 1, counter := s.counter + 1 } else s

namespace WakeupLoop

variable {s : WakeupLoop} {k n : Nat}

/-- The eventfd has been written to, or is about to be. -/
def Noticed (s : WakeupLoop) : Prop := 0 < s.counter ∨ s.due = true ∨ 0 < s.calls

/-- The functors have been swapped out and `handleRead` has not run again. -/
def Watched (phase : LoopPhase) : Prop :=
  phase = .runFunctors ∨ phase = .frameFunctor ∨ phase = .test ∨ phase = .doTimer ∨ phase = .poll

instance (phase : LoopPhase) : Decidable (Watched phase) :=
  inferInstanceAs (Decidable (_ ∨ _ ∨ _ ∨ _ ∨ _))

private theorem not_watched_handleEvents : ¬ Watched .handleEvents := by decide

/-- A task that nobody is woken up for. -/
def Quiet (s : WakeupLoop) (k : Nat) : Prop :=
  s.origins[k]? = some .entry ∨ s.origins[k]? = some (.here .doTimer) ∨
    s.origins[k]? = some (.here .frameFunctor)

instance (s : WakeupLoop) (k : Nat) : Decidable (s.Quiet k) :=
  inferInstanceAs (Decidable (_ ∨ _ ∨ _))

/-- What holds between any two steps: a functor that waits is either one that nobody is woken up
for, or the loop is going to notice it. -/
structure Alert (s : WakeupLoop) : Prop where
  order : s.run.InOrder
  origins : s.origins.length = s.run.queued
  due : s.due = true → s.run.phase = .runFunctors
  active : s.active = true → s.run.phase = .handleEvents ∧ 0 < s.counter
  pending : Watched s.run.phase → ∀ k ∈ s.run.pendingFunctors, s.Quiet k ∨ s.Noticed
  quit : s.run.quit = true ↔ s.quitHere = true ∨ s.quitElsewhere = true
  told : s.run.phase = .doTimer ∨ s.run.phase = .poll → s.quitElsewhere = true → s.Noticed
  returned : s.run.phase = .returned → s.run.quit = true

private theorem alert_enter (n : Nat) : (enter n).Alert where
  order := LoopRun.inOrder_enter n
  origins := List.length_replicate
  due := by simp [enter]
  active := by simp [enter]
  pending _ k hk := by
    refine Or.inl (Or.inl ?_)
    rw [enter, List.getElem?_replicate, if_pos (List.mem_range.mp hk)]
  quit := by simp [enter, LoopRun.enter]
  told _ := by simp [enter]
  returned := by simp [enter, LoopRun.enter]

private theorem Alert.pending_lt (h : s.Alert) (hk : k ∈ s.run.pendingFunctors) :
    k < s.origins.length := by
  have hmem : k ∈ List.range s.run.queued := by
    rw [← h.order.order]
    exact List.mem_append_right _ hk
  rw [h.origins]
  exact List.mem_range.mp hmem

private theorem Quiet.queueInLoop (h : s.Quiet k) (hk : k < s.origins.length) (origin : Origin) :
    (s.queueInLoop origin).Quiet k := by
  unfold Quiet WakeupLoop.queueInLoop at *
  rw [List.getElem?_append_left hk]
  exact h

/-- One more task, from somewhere. -/
theorem Alert.queueInLoop (h : s.Alert) {s' : WakeupLoop} {origin : Origin}
    (hrun : s'.run = s.run.queueInLoop) (horigins : s'.origins = s.origins ++ [origin])
    (hactive : s'.active = s.active) (hcounter : s'.counter = s.counter)
    (hhere : s'.quitHere = s.quitHere) (helsewhere : s'.quitElsewhere = s.quitElsewhere)
    (hdue : s'.due = true → s.run.phase = .runFunctors) (hmore : s.Noticed → s'.Noticed)
    (hnew : Watched s.run.phase →
      s'.Noticed ∨ origin = .here .doTimer ∨ origin = .here .frameFunctor) : s'.Alert where
  order := by
    rw [hrun]
    exact h.order.step .queueInLoop
  origins := by
    rw [horigins, hrun, List.length_append, h.origins]
    rfl
  due hs := by
    rw [hrun]
    exact hdue hs
  active hs := by
    rw [hactive] at hs
    rw [hrun, hcounter]
    exact h.active hs
  pending hphase k hk := by
    rw [hrun] at hphase hk
    change Watched s.run.phase at hphase
    rcases List.mem_append.mp hk with hk | hk
    · refine (h.pending hphase k hk).imp (fun hquiet => ?_) hmore
      have hkeep := hquiet.queueInLoop (h.pending_lt hk) origin
      unfold Quiet at hkeep ⊢
      rw [horigins]
      exact hkeep
    · rcases hnew hphase with hnoticed | horigin
      · exact Or.inr hnoticed
      · have hk' : s'.origins[k]? = some origin := by
          rw [List.mem_singleton.mp hk, horigins, ← h.origins, List.getElem?_concat_length]
        refine Or.inl (Or.inr ?_)
        rw [hk']
        exact horigin.imp (congrArg some) (congrArg some)
  quit := by
    rw [hrun, hhere, helsewhere]
    exact h.quit
  told hphase hs := by
    rw [hrun] at hphase
    rw [helsewhere] at hs
    exact hmore (h.told hphase hs)
  returned hphase := by
    rw [hrun] at hphase ⊢
    exact h.returned hphase

/-- The loop goes on to another phase, with the functors where they are. -/
theorem Alert.phase (h : s.Alert) {phase : LoopPhase} (hidle : s.run.functors = [])
    (hdue : s.due = false) (hactive : s.active = false)
    (hwatched : Watched phase → Watched s.run.phase)
    (htold : phase = .doTimer ∨ phase = .poll → s.run.phase = .doTimer ∨ s.run.phase = .poll ∨
      s.quitElsewhere = false)
    (hreturned : phase = .returned → s.run.quit = true) :
    { s with run := { s.run with phase := phase } }.Alert where
  order := ⟨h.order.order, fun _ => hidle⟩
  origins := h.origins
  due hs := absurd hs (ne_true_of_eq_false hdue)
  active hs := absurd hs (ne_true_of_eq_false hactive)
  pending hphase := h.pending (hwatched hphase)
  quit := h.quit
  told hphase hs := by
    rcases htold hphase with hbefore | hbefore | hfalse
    · exact h.told (Or.inl hbefore) hs
    · exact h.told (Or.inr hbefore) hs
    · exact absurd hs (ne_true_of_eq_false hfalse)
  returned := hreturned

/-! ## A step of the thread of the loop -/

private theorem own_due (hdue : s.due = true) (ready : Bool) :
    s.own ready = { s with counter := s.counter + 1, due := false } := if_pos hdue

/-- Outside of `poll` and of the wakeup channel's turn, the thread goes on. -/
theorem own_advance (hdue : s.due = false) (hpoll : s.run.phase ≠ .poll)
    (hactive : s.active = false) (ready : Bool) :
    s.own ready = { s with run := s.run.advance } := by
  simp only [own, hdue, hpoll, hactive, Bool.false_eq_true, if_false, and_false]

private theorem Alert.inactive (h : s.Alert) (hphase : s.run.phase ≠ .handleEvents) :
    s.active = false :=
  Bool.eq_false_iff.mpr fun hactive => hphase (h.active hactive).1

private theorem Alert.not_due (h : s.Alert) (hphase : s.run.phase ≠ .runFunctors) : s.due = false :=
  Bool.eq_false_iff.mpr fun hdue => hphase (h.due hdue)

/-- The eventfd is written to at last. -/
theorem Alert.write (h : s.Alert) (hdue : s.due = true) :
    { s with counter := s.counter + 1, due := false }.Alert where
  order := h.order
  origins := h.origins
  due := by simp
  active hs := ⟨(h.active hs).1, Nat.succ_pos _⟩
  pending _ _ _ := Or.inr (Or.inl (Nat.succ_pos _))
  quit := h.quit
  told hphase := by
    simp [h.due hdue] at hphase
  returned := h.returned

/-- The functors are swapped out: none is pending. -/
theorem Alert.swap (h : s.Alert) (hphase : s.run.phase = .swapFunctors) :
    { s with run := s.run.advance }.Alert := by
  have horder := h.order.advance
  have hrun : s.run.advance =
      { s.run with
        phase := .runFunctors, functors := s.run.pendingFunctors, pendingFunctors := [] } := by
    simp only [LoopRun.advance, hphase]
  have hinactive := h.inactive (by simp [hphase])
  have hnotDue := h.not_due (by simp [hphase])
  rw [hrun] at horder ⊢
  exact ⟨horder, h.origins, fun hs => absurd hs (ne_true_of_eq_false hnotDue),
    fun hs => absurd hs (ne_true_of_eq_false hinactive), fun _ k hk => absurd hk List.not_mem_nil,
    h.quit, by simp, by simp⟩

/-- The next functor is run. -/
theorem Alert.run (h : s.Alert) (hphase : s.run.phase = .runFunctors) (hdue : s.due = false)
    {f : Nat} {rest : List Nat} (hfunctors : s.run.functors = f :: rest) :
    { s with run := s.run.advance }.Alert := by
  have horder := h.order.advance
  have hrun : s.run.advance =
      { s.run with functors := rest, executed := s.run.executed ++ [f] } := by
    simp only [LoopRun.advance, hphase, hfunctors]
  have hinactive := h.inactive (by simp [hphase])
  rw [hrun] at horder ⊢
  exact ⟨horder, h.origins, fun hs => absurd hs (ne_true_of_eq_false hdue),
    fun hs => absurd hs (ne_true_of_eq_false hinactive), h.pending, h.quit, h.told, h.returned⟩

private theorem Alert.own (h : s.Alert) (ready : Bool) : (s.own ready).Alert := by
  cases hdue : s.due with
  | true =>
    rw [own_due hdue]
    exact h.write hdue
  | false =>
    have hidle : s.run.phase ≠ .runFunctors → s.run.functors = [] := h.order.idle
    have hgoes : ∀ phase, s.run.phase ≠ .poll → s.run.phase ≠ .handleEvents →
        s.run.advance = { s.run with phase := phase } → s.run.functors = [] →
        (Watched phase → Watched s.run.phase) →
        (phase = .doTimer ∨ phase = .poll → s.run.phase = .doTimer ∨ s.run.phase = .poll ∨
          s.quitElsewhere = false) →
        (phase = .returned → s.run.quit = true) → (s.own ready).Alert := by
      intro phase hpoll hevents hrun hidle hwatched htold hreturned
      rw [own_advance hdue hpoll (h.inactive hevents), hrun]
      exact h.phase hidle hdue (h.inactive hevents) hwatched htold hreturned
    cases hphase : s.run.phase with
    | test =>
      have hrun : s.run.advance =
          { s.run with phase := if s.run.quit then .returned else .doTimer } := by
        simp only [LoopRun.advance, hphase]
      refine hgoes _ (by simp [hphase]) (by simp [hphase]) hrun
        (hidle (by simp [hphase])) (fun _ => Or.inr (Or.inr (Or.inl hphase))) ?_ ?_
      · intro hnext
        refine Or.inr (Or.inr (Bool.eq_false_iff.mpr fun helsewhere => ?_))
        simp [h.quit.mpr (Or.inr helsewhere)] at hnext
      · intro hnext
        by_contra hquit
        rw [if_neg hquit] at hnext
        cases hnext
    | doTimer =>
      have hrun : s.run.advance = { s.run with phase := .poll } := by
        simp only [LoopRun.advance, hphase]
      exact hgoes _ (by simp [hphase]) (by simp [hphase]) hrun
        (hidle (by simp [hphase])) (fun _ => Or.inr (Or.inr (Or.inr (Or.inl hphase))))
        (fun _ => Or.inl hphase) (by simp)
    | poll =>
      have hrun : s.run.advance = { s.run with phase := .handleEvents } := by
        simp only [LoopRun.advance, hphase]
      by_cases hwoken : 0 < s.counter ∨ ready
      · have hown : s.own ready =
            { s with
              run := { s.run with phase := .handleEvents }, active := decide (0 < s.counter) } := by
          simp only [WakeupLoop.own, hdue, hphase, hwoken, hrun, Bool.false_eq_true, if_true,
            if_false]
        rw [hown]
        exact ⟨⟨h.order.order, fun _ => hidle (by simp [hphase])⟩, h.origins,
          fun hs => absurd hs (ne_true_of_eq_false hdue), fun hs => ⟨rfl, of_decide_eq_true hs⟩,
          fun hwatched => absurd hwatched not_watched_handleEvents, h.quit,
          by simp, by simp⟩
      · have hown : s.own ready = s := by
          simp only [WakeupLoop.own, hdue, hphase, hwoken, Bool.false_eq_true, if_true, if_false]
        rw [hown]
        exact h
    | handleEvents =>
      cases hactive : s.active with
      | true =>
        have hown : s.own ready = { s with counter := 0, active := false } := by
          simp only [WakeupLoop.own, hdue, hphase, hactive, Bool.false_eq_true, if_false, reduceCtorEq,
            and_self, if_true]
        rw [hown]
        exact ⟨h.order, h.origins, h.due, by simp,
          fun hwatched => absurd (hphase ▸ hwatched) not_watched_handleEvents, h.quit,
          fun hnext => absurd (hphase ▸ hnext) (by decide), h.returned⟩
      | false =>
        have hrun : s.run.advance = { s.run with phase := .swapFunctors } := by
          simp only [LoopRun.advance, hphase]
        rw [own_advance hdue (by simp [hphase]) hactive, hrun]
        exact h.phase (hidle (by simp [hphase])) hdue hactive
          (fun hw => absurd hw (by decide))
          (by simp) (by simp)
    | swapFunctors =>
      rw [own_advance hdue (by simp [hphase]) (h.inactive (by simp [hphase]))]
      exact h.swap hphase
    | runFunctors =>
      cases hfunctors : s.run.functors with
      | nil =>
        have hrun : s.run.advance = { s.run with phase := .frameFunctor } := by
          simp only [LoopRun.advance, hphase, hfunctors]
        exact hgoes _ (by simp [hphase]) (by simp [hphase]) hrun hfunctors
          (fun _ => Or.inl hphase) (by simp) (by simp)
      | cons f rest =>
        rw [own_advance hdue (by simp [hphase]) (h.inactive (by simp [hphase]))]
        exact h.run hphase hdue hfunctors
    | frameFunctor =>
      have hrun : s.run.advance = { s.run with phase := .test } := by
        simp only [LoopRun.advance, hphase]
      exact hgoes _ (by simp [hphase]) (by simp [hphase]) hrun
        (hidle (by simp [hphase])) (fun _ => Or.inr (Or.inl hphase))
        (by simp) (by simp)
    | returned =>
      have hrun : s.run.advance = { s.run with phase := .returned } := by
        simp only [LoopRun.advance, hphase]
        rw [← hphase]
      exact hgoes _ (by simp [hphase]) (by simp [hphase]) hrun
        (hidle (by simp [hphase]))
        (fun hw => absurd hw (by decide))
        (by simp) fun _ => h.returned hphase

private theorem Alert.step (h : s.Alert) (e : LoopEvent) : (eventLoopStep s e).Alert := by
  cases e with
  | own ready => exact h.own ready
  | queueHere =>
    rw [eventLoopStep]
    split
    · next hcond =>
      have hdue : s.due = false := Bool.eq_false_iff.mpr hcond.2
      refine h.queueInLoop rfl rfl rfl rfl rfl rfl of_decide_eq_true (fun hnoticed => ?_)
        fun hwatched => ?_
      · exact hnoticed.imp_right fun hor =>
          Or.inr (hor.resolve_left (ne_true_of_eq_false hdue))
      · rcases hcond.1 with hphase | hphase | hphase | hphase
        · exact Or.inr (Or.inl (congrArg Origin.here hphase))
        · exact absurd (hphase ▸ hwatched) not_watched_handleEvents
        · exact Or.inl (Or.inr (Or.inl (decide_eq_true hphase)))
        · exact Or.inr (Or.inr (congrArg Origin.here hphase))
    · exact h
  | quitHere =>
    rw [eventLoopStep]
    split
    · exact ⟨⟨h.order.order, h.order.idle⟩, h.origins, h.due, h.active, h.pending,
        iff_of_true rfl (Or.inl rfl), h.told, fun _ => rfl⟩
    · exact h
  | queueElsewhere =>
    exact h.queueInLoop rfl rfl rfl rfl rfl rfl h.due
      (fun _ => Or.inr (Or.inr (Nat.succ_pos _))) fun _ => Or.inl (Or.inr (Or.inr (Nat.succ_pos _)))
  | quitElsewhere =>
    exact ⟨⟨h.order.order, h.order.idle⟩, h.origins, h.due, h.active,
      fun _ _ _ => Or.inr (Or.inr (Or.inr (Nat.succ_pos _))), iff_of_true rfl (Or.inr rfl),
      fun _ _ => Or.inr (Or.inr (Nat.succ_pos _)), fun _ => rfl⟩
  | wakeup =>
    rw [eventLoopStep]
    split
    · exact ⟨h.order, h.origins, h.due, fun hs => ⟨(h.active hs).1, Nat.succ_pos _⟩,
        fun _ _ _ => Or.inr (Or.inl (Nat.succ_pos _)), h.quit,
        fun _ _ => Or.inl (Nat.succ_pos _), h.returned⟩
    · exact h

/-- Between the calls of other threads, a poll that does not return at once holds up no task
but those that the loop's own thread has queued before `loop`, in a timer or in the frame
functor, and no `quit` but its own. -/
theorem poll_sleeps_over_quiet (n : Nat) (events : List LoopEvent)
    (hpoll : (events.foldl eventLoopStep (enter n)).run.phase = .poll)
    (hcounter : (events.foldl eventLoopStep (enter n)).counter = 0)
    (hcalls : (events.foldl eventLoopStep (enter n)).calls = 0) :
    let s := events.foldl eventLoopStep (enter n)
    (∀ k ∈ s.run.pendingFunctors, s.Quiet k) ∧ (s.run.quit = true → s.quitHere = true) := by
  intro s
  have h : s.Alert := foldl_invariant (alert_enter n) (fun _ e h => h.step e) events
  have hasleep : ¬ s.Noticed := by
    rintro (hcount | hdue | hcall)
    · exact absurd hcounter hcount.ne'
    · exact absurd ((h.due hdue).symm.trans hpoll) (by simp)
    · exact absurd hcalls hcall.ne'
  refine ⟨fun k hk => ?_, fun hquit => ?_⟩
  · have hwatched : Watched s.run.phase := by
      rw [show s.run.phase = .poll from hpoll]
      decide
    exact (h.pending hwatched k hk).resolve_right hasleep
  · exact (h.quit.mp hquit).resolve_right fun helsewhere =>
      hasleep (h.told (Or.inr hpoll) helsewhere)

/-- A task from before `loop` and one from a timer, at the first poll. -/
theorem poll_sleeps_over_timer_task :
    let s := [LoopEvent.own false, .queueHere, .own false].foldl eventLoopStep (enter 1)
    s.run.pendingFunctors = [0, 1] ∧ ∀ k ∈ s.run.pendingFunctors, s.Quiet k :=
  ⟨rfl, (poll_sleeps_over_quiet 1 [.own false, .queueHere, .own false] rfl rfl rfl).1⟩

/-! ## Without a time-out -/

/-- Left to itself, and with nothing else ready, the thread of the loop runs the task. -/
def Gets (k : Nat) (s : WakeupLoop) : Prop :=
  ∃ m, k ∈ ((fun s => s.own false)^[m] s).run.executed

private theorem gets_of_own (h : Gets k (s.own false)) : Gets k s := by
  obtain ⟨m, hm⟩ := h
  exact ⟨m + 1, hm⟩

/-- The functors that have been swapped out are run one after another. -/
theorem gets_of_functors (hphase : s.run.phase = .runFunctors) (hactive : s.active = false)
    (hdue : s.due = false) (hk : k ∈ s.run.functors) : Gets k s := by
  induction hfunctors : s.run.functors generalizing s with
  | nil =>
    rw [hfunctors] at hk
    exact absurd hk List.not_mem_nil
  | cons f rest ih =>
    have hown : s.own false =
        { s with run := { s.run with functors := rest, executed := s.run.executed ++ [f] } } := by
      rw [own_advance hdue (by simp [hphase]) hactive]
      simp only [LoopRun.advance, hphase, hfunctors]
    refine gets_of_own ?_
    rw [hown]
    rw [hfunctors] at hk
    rcases List.mem_cons.mp hk with rfl | hk
    · exact ⟨0, List.mem_append_right _ (List.mem_singleton.mpr rfl)⟩
    · exact ih hphase hactive hdue hk rfl

private theorem gets_at_swap (hphase : s.run.phase = .swapFunctors) (hactive : s.active = false)
    (hdue : s.due = false) (hk : k ∈ s.run.pendingFunctors) : Gets k s := by
  refine gets_of_own ?_
  rw [own_advance hdue (by simp [hphase]) hactive]
  have hrun : s.run.advance =
      { s.run with
        phase := .runFunctors, functors := s.run.pendingFunctors, pendingFunctors := [] } := by
    simp only [LoopRun.advance, hphase]
  rw [hrun]
  exact gets_of_functors rfl hactive hdue hk

private theorem gets_at_handleEvents (hphase : s.run.phase = .handleEvents) (hdue : s.due = false)
    (hk : k ∈ s.run.pendingFunctors) : Gets k s := by
  have hidle : ∀ t : WakeupLoop, t.run.phase = .handleEvents → t.active = false → t.due = false →
      k ∈ t.run.pendingFunctors → Gets k t := by
    intro t hphase hactive hdue hk
    refine gets_of_own ?_
    have hrun : t.run.advance = { t.run with phase := .swapFunctors } := by
      simp only [LoopRun.advance, hphase]
    rw [own_advance hdue (by simp [hphase]) hactive, hrun]
    exact gets_at_swap rfl hactive hdue hk
  cases hactive : s.active with
  | false => exact hidle s hphase hactive hdue hk
  | true =>
    have hown : s.own false = { s with counter := 0, active := false } := by
      simp only [WakeupLoop.own, hdue, hphase, hactive, Bool.false_eq_true, if_false, reduceCtorEq,
        and_self, if_true]
    refine gets_of_own ?_
    rw [hown]
    exact hidle _ hphase rfl hdue hk

/-- A poll returns at once, and the iteration swaps the task out. -/
theorem gets_at_poll (hphase : s.run.phase = .poll) (hcounter : 0 < s.counter)
    (hdue : s.due = false) (hk : k ∈ s.run.pendingFunctors) : Gets k s := by
  have hrun : s.run.advance = { s.run with phase := .handleEvents } := by
    simp only [LoopRun.advance, hphase]
  have hown : s.own false =
      { s with
        run := { s.run with phase := .handleEvents }, active := decide (0 < s.counter) } := by
    simp only [WakeupLoop.own, hdue, hphase, hcounter, hrun, Bool.false_eq_true, if_true, if_false,
      true_or]
  refine gets_of_own ?_
  rw [hown]
  exact gets_at_handleEvents rfl hdue hk

/-- From the frame functor, the test and the timers the loop goes on to the poll. -/
theorem gets_before_poll (hphase : s.run.phase = .frameFunctor ∨ s.run.phase = .test ∨
      s.run.phase = .doTimer ∨ s.run.phase = .poll)
    (hcounter : 0 < s.counter) (hquit : s.run.quit = false) (hactive : s.active = false)
    (hdue : s.due = false) (hk : k ∈ s.run.pendingFunctors) : Gets k s := by
  have htimer : ∀ t : WakeupLoop, t.run.phase = .doTimer → 0 < t.counter → t.active = false →
      t.due = false → k ∈ t.run.pendingFunctors → Gets k t := by
    intro t hphase hcounter hactive hdue hk
    have hrun : t.run.advance = { t.run with phase := .poll } := by
      simp only [LoopRun.advance, hphase]
    refine gets_of_own ?_
    rw [own_advance hdue (by simp [hphase]) hactive, hrun]
    exact gets_at_poll rfl hcounter hdue hk
  have htest : ∀ t : WakeupLoop, t.run.phase = .test → t.run.quit = false → 0 < t.counter →
      t.active = false → t.due = false → k ∈ t.run.pendingFunctors → Gets k t := by
    intro t hphase hquit hcounter hactive hdue hk
    have hrun : t.run.advance = { t.run with phase := .doTimer } := by
      simp only [LoopRun.advance, hphase, hquit, Bool.false_eq_true, if_false]
    refine gets_of_own ?_
    rw [own_advance hdue (by simp [hphase]) hactive, hrun]
    exact htimer _ rfl hcounter hactive hdue hk
  rcases hphase with hphase | hphase | hphase | hphase
  · have hrun : s.run.advance = { s.run with phase := .test } := by
      simp only [LoopRun.advance, hphase]
    refine gets_of_own ?_
    rw [own_advance hdue (by simp [hphase]) hactive, hrun]
    exact htest _ rfl hquit hcounter hactive hdue hk
  · exact htest s hphase hquit hcounter hactive hdue hk
  · exact htimer s hphase hcounter hactive hdue hk
  · exact gets_at_poll hphase hcounter hdue hk

/-- While the functors of this iteration are run, the task waits for the next. -/
theorem gets_at_runFunctors (hphase : s.run.phase = .runFunctors) (hcounter : 0 < s.counter)
    (hquit : s.run.quit = false) (hactive : s.active = false) (hdue : s.due = false)
    (hk : k ∈ s.run.pendingFunctors) : Gets k s := by
  induction hfunctors : s.run.functors generalizing s with
  | nil =>
    have hrun : s.run.advance = { s.run with phase := .frameFunctor } := by
      simp only [LoopRun.advance, hphase, hfunctors]
    refine gets_of_own ?_
    rw [own_advance hdue (by simp [hphase]) hactive, hrun]
    exact gets_before_poll (Or.inl rfl) hcounter hquit hactive hdue hk
  | cons f rest ih =>
    have hrun : s.run.advance =
        { s.run with functors := rest, executed := s.run.executed ++ [f] } := by
      simp only [LoopRun.advance, hphase, hfunctors]
    refine gets_of_own ?_
    rw [own_advance hdue (by simp [hphase]) hactive, hrun]
    exact ih hphase hcounter hquit hactive hdue hk rfl

/-- A task that another thread or a functor has queued is run without any `poll` having to wait
for its time to be up: once the calls of the other threads are over, the steps of the loop's
own thread lead to it, with no descriptor ready but the eventfd. -/
theorem queued_task_gets_run (n : Nat) (events : List LoopEvent) {k : Nat}
    (hcalls : (events.foldl eventLoopStep (enter n)).calls = 0)
    (hquit : (events.foldl eventLoopStep (enter n)).run.quit = false)
    (hk : k ∈ (events.foldl eventLoopStep (enter n)).run.pendingFunctors)
    (hloud : ¬ (events.foldl eventLoopStep (enter n)).Quiet k) :
    Gets k (events.foldl eventLoopStep (enter n)) := by
  have h : (events.foldl eventLoopStep (enter n)).Alert :=
    foldl_invariant (alert_enter n) (fun _ e h => h.step e) events
  revert hcalls hquit hk hloud h
  generalize events.foldl eventLoopStep (enter n) = s
  intro hcalls hquit hk hloud h
  by_cases hwatched : Watched s.run.phase
  · have hnoticed := (h.pending hwatched k hk).resolve_left hloud
    cases hdue : s.due with
    | true =>
      have hphase := h.due hdue
      have hactive := h.inactive (by simp [hphase])
      refine gets_of_own ?_
      rw [own_due hdue]
      exact gets_at_runFunctors hphase (Nat.succ_pos _) hquit hactive rfl hk
    | false =>
      have hcounter : 0 < s.counter := by
        rcases hnoticed with hcounter | htrue | hmore
        · exact hcounter
        · exact absurd htrue (ne_true_of_eq_false hdue)
        · exact absurd hcalls hmore.ne'
      have hactive := h.inactive fun hphase => not_watched_handleEvents (hphase ▸ hwatched)
      rcases hwatched with hphase | hphase
      · exact gets_at_runFunctors hphase hcounter hquit hactive hdue hk
      · exact gets_before_poll hphase hcounter hquit hactive hdue hk
  · have hdue := h.not_due fun hphase => hwatched (Or.inl hphase)
    cases hphase : s.run.phase with
    | handleEvents => exact gets_at_handleEvents hphase hdue hk
    | swapFunctors => exact gets_at_swap hphase (h.inactive (by simp [hphase])) hdue hk
    | returned => exact absurd (h.returned hphase) (ne_true_of_eq_false hquit)
    | test | doTimer | poll | runFunctors | frameFunctor =>
      exact absurd (by rw [hphase]; decide) hwatched

/-- A task that another thread queues while the loop sleeps in its first poll. -/
theorem queued_task_gets_run_elsewhere :
    Gets 0 ([LoopEvent.own false, .own false, .queueElsewhere, .own false, .wakeup].foldl
      eventLoopStep (enter 0)) :=
  queued_task_gets_run 0 [.own false, .own false, .queueElsewhere, .own false, .wakeup] rfl rfl
    (by decide) (by decide)

end WakeupLoop

end ChatRoom.Net
