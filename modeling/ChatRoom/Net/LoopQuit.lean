import Mathlib.Data.List.Nodup
import Mathlib.Data.List.Range
import ChatRoom.Core.Run

/-!
# Quitting a loop

`EventLoop::loop` with the calls of other threads between its steps. A task is named
by the number of its `queueInLoop` call, so the three places a task can be in, taken
together, always hold the numbers in order. The run starts where `loop` has reset
`m_quit`, with what was queued before. A poll may return at any time, if only because
its time is up.
-/

namespace ChatRoom.Net

open ChatRoom.Core

/-- Where the loop thread stands: at the test of `m_quit`, in one of the parts of the body,
or behind the loop. -/
inductive LoopPhase where
  | test
  | doTimer
  | poll
  | handleEvents
  | swapFunctors
  | runFunctors
  | frameFunctor
  | returned
  deriving DecidableEq, Repr

/-- The body will still swap the pending functors out in this iteration. -/
def LoopPhase.BeforeSwap (phase : LoopPhase) : Prop :=
  phase = .doTimer ∨ phase = .poll ∨ phase = .handleEvents ∨ phase = .swapFunctors

instance (phase : LoopPhase) : Decidable phase.BeforeSwap :=
  inferInstanceAs (Decidable (_ ∨ _ ∨ _ ∨ _))

/-- A run of `loop`, with the functors as numbers in the order they were queued. -/
structure LoopRun where
  phase : LoopPhase
  quit : Bool
  pendingFunctors : List Nat
  /-- What is left of the vector that `doOtherTasks` has swapped out. -/
  functors : List Nat
  executed : List Nat
  /-- Calls of `queueInLoop` so far. -/
  queued : Nat
  deriving DecidableEq, Repr

/-- A step of the loop thread, or a call by any thread. -/
inductive LoopAction where
  | advance
  | queueInLoop
  | quit
  deriving DecidableEq, Repr

namespace LoopRun

/-- `loop` is entered with `n` tasks queued. -/
def enter (n : Nat) : LoopRun := ⟨.test, false, List.range n, [], [], n⟩

/-- The next functor is queued. -/
def queueInLoop (r : LoopRun) : LoopRun :=
  { r with pendingFunctors := r.pendingFunctors ++ [r.queued], queued := r.queued + 1 }

/-- The next step of the loop thread. -/
def advance (r : LoopRun) : LoopRun :=
  match r.phase with
  | .test => { r with phase := if r.quit then .returned else .doTimer }
  | .doTimer => { r with phase := .poll }
  | .poll => { r with phase := .handleEvents }
  | .handleEvents => { r with phase := .swapFunctors }
  | .swapFunctors =>
    { r with phase := .runFunctors, functors := r.pendingFunctors, pendingFunctors := [] }
  | .runFunctors =>
    match r.functors with
    | [] => { r with phase := .frameFunctor }
    | f :: rest => { r with functors := rest, executed := r.executed ++ [f] }
  | .frameFunctor => { r with phase := .test }
  | .returned => r

end LoopRun

/-- One action: the loop goes on, or a thread queues a functor or calls `quit`. -/
def loopActionStep (r : LoopRun) : LoopAction → LoopRun
  | .advance => r.advance
  | .queueInLoop => r.queueInLoop
  | .quit => { r with quit := true }

namespace LoopRun

variable {r s : LoopRun}

/-- What a step of the loop thread does: it goes on to another phase, swaps the pending
functors out, or runs the next one. -/
theorem advance_cases (r : LoopRun) :
    (∃ phase, r.advance = { r with phase := phase } ∧ r.phase ≠ .swapFunctors ∧
      phase ≠ .runFunctors ∧ (r.phase = .runFunctors → r.functors = []) ∧
      (phase.BeforeSwap ↔ r.phase.BeforeSwap ∨ (r.phase = .test ∧ r.quit = false))) ∨
    (r.phase = .swapFunctors ∧ r.advance =
      { r with phase := .runFunctors, functors := r.pendingFunctors, pendingFunctors := [] }) ∨
    (∃ f rest, r.phase = .runFunctors ∧ r.functors = f :: rest ∧
      r.advance = { r with functors := rest, executed := r.executed ++ [f] }) := by
  cases hphase : r.phase with
  | test =>
    refine Or.inl ⟨if r.quit then .returned else .doTimer, ?_⟩
    rw [advance, hphase]
    cases r.quit <;> exact ⟨rfl, by decide, by decide, nofun, by decide⟩
  | doTimer =>
    exact Or.inl ⟨.poll, by rw [advance, hphase], nofun, nofun, nofun, by cases r.quit <;> decide⟩
  | poll =>
    exact Or.inl ⟨.handleEvents, by rw [advance, hphase], nofun, nofun, nofun,
      by cases r.quit <;> decide⟩
  | handleEvents =>
    exact Or.inl ⟨.swapFunctors, by rw [advance, hphase], nofun, nofun, nofun,
      by cases r.quit <;> decide⟩
  | swapFunctors => exact Or.inr (Or.inl ⟨rfl, by rw [advance, hphase]⟩)
  | runFunctors =>
    cases hfunctors : r.functors with
    | nil =>
      refine Or.inl ⟨.frameFunctor, ?_, nofun, nofun, fun _ => rfl, by cases r.quit <;> decide⟩
      simp only [advance, hphase, hfunctors]
    | cons f rest =>
      refine Or.inr (Or.inr ⟨f, rest, rfl, rfl, ?_⟩)
      simp only [advance, hphase, hfunctors]
  | frameFunctor =>
    exact Or.inl ⟨.test, by rw [advance, hphase], nofun, nofun, nofun, by cases r.quit <;> decide⟩
  | returned =>
    refine Or.inl ⟨.returned, ?_, nofun, nofun, nofun, by cases r.quit <;> decide⟩
    simp only [advance, hphase]
    rw [← hphase]

/-- Tasks stand in the order of their calls, and only `runFunctors` is in the middle of a
vector. -/
structure InOrder (r : LoopRun) : Prop where
  order : r.executed ++ r.functors ++ r.pendingFunctors = List.range r.queued
  idle : r.phase ≠ .runFunctors → r.functors = []

/-- `loop` is entered with its tasks in order. -/
theorem inOrder_enter (n : Nat) : (enter n).InOrder := ⟨rfl, fun _ => rfl⟩

/-- The loop's own steps keep the tasks in order. -/
theorem InOrder.advance (h : r.InOrder) : r.advance.InOrder := by
  have horder := h.order
  rcases r.advance_cases with
    ⟨phase, heq, _, _, hrun, _⟩ | ⟨hphase, heq⟩ | ⟨f, rest, hphase, hfunctors, heq⟩
  · rw [heq]
    refine ⟨horder, fun _ => ?_⟩
    by_cases hphase : r.phase = .runFunctors
    · exact hrun hphase
    · exact h.idle hphase
  · rw [h.idle (by rw [hphase]; nofun), List.append_nil] at horder
    rw [heq]
    refine ⟨?_, fun hne => absurd rfl hne⟩
    simpa only [List.append_nil] using horder
  · rw [hfunctors] at horder
    rw [heq]
    refine ⟨?_, fun hne => absurd hphase hne⟩
    simpa only [List.append_assoc, List.cons_append, List.nil_append] using horder

/-- Every action keeps the tasks in order. -/
theorem InOrder.step (h : r.InOrder) (a : LoopAction) : (loopActionStep r a).InOrder := by
  cases a with
  | advance => exact h.advance
  | queueInLoop =>
    refine ⟨?_, h.idle⟩
    simp only [loopActionStep, LoopRun.queueInLoop, List.range_succ, ← h.order, List.append_assoc]
  | quit => exact ⟨h.order, h.idle⟩

/-- The tasks that have been run or are in the vector being run are the first ones. -/
theorem InOrder.taken (h : r.InOrder) :
    (r.executed ++ r.functors).length + r.pendingFunctors.length = r.queued := by
  rw [← List.length_append, h.order, List.length_range]

private theorem InOrder.executed_eq (h : r.InOrder) :
    r.executed = List.range r.executed.length := by
  have htake := congrArg (List.take r.executed.length) h.order
  rw [List.append_assoc, List.take_left, List.take_range, Nat.min_eq_left] at htake
  · exact htake
  · have := h.taken
    rw [List.length_append] at this
    omega

/-- The task of call `k` has been run exactly once when `k` runs came before it or with it. -/
theorem InOrder.count_eq_one_iff (h : r.InOrder) (k : Nat) :
    r.executed.count k = 1 ↔ k < r.executed.length := by
  rw [h.executed_eq, List.length_range]
  constructor
  · intro hcount
    exact List.mem_range.mp (List.count_pos_iff.mp (by rw [hcount]; exact Nat.one_pos))
  · intro hk
    exact List.count_eq_one_of_mem List.nodup_range (List.mem_range.mpr hk)

private theorem InOrder.all_executed_iff (h : r.InOrder) (n : Nat) :
    (∀ k < n, r.executed.count k = 1) ↔ n ≤ r.executed.length := by
  simp only [h.count_eq_one_iff]
  refine ⟨fun hall => ?_, fun hle k hk => Nat.lt_of_lt_of_le hk hle⟩
  by_contra hlt
  exact Nat.lt_irrefl _ (hall _ (Nat.lt_of_not_le hlt))

/-! ## After `quit` -/

/-- The loop is on its way out: no functor is swapped out any more. -/
structure Leaving (s r : LoopRun) : Prop where
  quit : r.quit = true
  late : ¬ r.phase.BeforeSwap
  taken : r.executed ++ r.functors = s.executed ++ s.functors

private theorem Leaving.step (h : Leaving s r) (a : LoopAction) :
    Leaving s (loopActionStep r a) := by
  cases a with
  | queueInLoop => exact ⟨h.quit, h.late, h.taken⟩
  | quit => exact ⟨rfl, h.late, h.taken⟩
  | advance =>
    change Leaving s r.advance
    rcases r.advance_cases with
      ⟨phase, heq, _, _, _, hswap⟩ | ⟨hphase, _⟩ | ⟨f, rest, _, hfunctors, heq⟩
    · rw [heq]
      refine ⟨h.quit, ?_, h.taken⟩
      rw [hswap, h.quit]
      exact fun hor => hor.elim h.late nofun
    · exact absurd (Or.inr (Or.inr (Or.inr hphase))) h.late
    · have htaken := h.taken
      rw [hfunctors] at htaken
      rw [heq]
      refine ⟨h.quit, h.late, ?_⟩
      simpa only [List.append_assoc, List.cons_append, List.nil_append] using htaken

/-- The loop is told to quit before a swap, and will take `n` tasks by it or has them. -/
structure Holds (n : Nat) (r : LoopRun) : Prop where
  order : r.InOrder
  quit : r.quit = true
  queued : n ≤ r.queued
  taken : r.phase.BeforeSwap ∨ n ≤ (r.executed ++ r.functors).length

private theorem Holds.step {n : Nat} (h : Holds n r) (a : LoopAction) :
    Holds n (loopActionStep r a) := by
  cases a with
  | queueInLoop =>
    exact ⟨h.order.step .queueInLoop, h.quit, Nat.le_succ_of_le h.queued, h.taken⟩
  | quit => exact ⟨h.order.step .quit, rfl, h.queued, h.taken⟩
  | advance =>
    have hnext := h.order.advance
    change Holds n r.advance
    rcases r.advance_cases with
      ⟨phase, heq, _, _, _, hswap⟩ | ⟨_, heq⟩ | ⟨f, rest, hphase, hfunctors, heq⟩
    · rw [heq] at hnext ⊢
      exact ⟨hnext, h.quit, h.queued, h.taken.imp_left fun hearly => hswap.mpr (Or.inl hearly)⟩
    · -- The swap takes all that is pending, so all that has been queued.
      rw [heq] at hnext ⊢
      have htaken := hnext.taken
      simp only [List.length_nil, Nat.add_zero] at htaken
      exact ⟨hnext, h.quit, h.queued, Or.inr (by rw [htaken]; exact h.queued)⟩
    · have htaken := h.taken.resolve_left (by rw [hphase]; decide)
      rw [heq] at hnext ⊢
      refine ⟨hnext, h.quit, h.queued, Or.inr ?_⟩
      rw [hfunctors] at htaken
      simpa only [List.append_assoc, List.cons_append, List.nil_append] using htaken

end LoopRun

open LoopRun in
/-- When `loop` has returned, every task queued before a call of `quit` has been run exactly
once if and only if nothing was pending at that call or the iteration under way had not
swapped its functors out yet. -/
theorem quit_loses_nothing_iff (n : Nat) (before after : List LoopAction)
    (hreturned : ((before ++ .quit :: after).foldl loopActionStep (enter n)).phase = .returned) :
    let s := before.foldl loopActionStep (enter n)
    (∀ k < s.queued, ((before ++ .quit :: after).foldl loopActionStep
        (enter n)).executed.count k = 1) ↔ s.pendingFunctors = [] ∨ s.phase.BeforeSwap := by
  intro s
  have horder : s.InOrder := foldl_invariant (inOrder_enter n) (fun _ a h => h.step a) before
  rw [List.foldl_append, List.foldl_cons] at hreturned ⊢
  generalize hq : loopActionStep (before.foldl loopActionStep (enter n)) .quit = q at hreturned ⊢
  have hqorder : q.InOrder := hq ▸ horder.step .quit
  have hqs : q = { s with quit := true } := hq.symm
  have hend : (after.foldl loopActionStep q).InOrder :=
    foldl_invariant hqorder (fun _ a h => h.step a) after
  have hidle : (after.foldl loopActionStep q).functors = [] :=
    hend.idle (by rw [hreturned]; nofun)
  rw [hend.all_executed_iff]
  by_cases hearly : s.phase.BeforeSwap
  · have hholds : Holds s.queued q := by
      rw [hqs] at hqorder ⊢
      exact ⟨hqorder, rfl, Nat.le_refl _, Or.inl hearly⟩
    have htaken := (foldl_invariant (P := Holds s.queued) hholds (fun _ a h => h.step a)
      after).taken.resolve_left (by rw [hreturned]; decide)
    rw [hidle, List.append_nil] at htaken
    exact iff_of_true htaken (Or.inr hearly)
  · have hleaving : Leaving s q := by
      rw [hqs]
      exact ⟨rfl, hearly, rfl⟩
    have htaken := (foldl_invariant (P := Leaving s) hleaving (fun _ a h => h.step a) after).taken
    rw [hidle, List.append_nil] at htaken
    have hlength := horder.taken
    rw [htaken, or_iff_left hearly, ← List.length_eq_zero_iff]
    omega

open LoopRun in
/-- A task queued during the poll before `quit` is called there. -/
theorem quit_during_poll_loses_nothing :
    let before := [LoopAction.advance, .advance, .queueInLoop]
    let after := List.replicate 7 LoopAction.advance
    ∀ k < 1, ((before ++ .quit :: after).foldl loopActionStep (enter 0)).executed.count k = 1 :=
  (quit_loses_nothing_iff 0 [.advance, .advance, .queueInLoop] (List.replicate 7 .advance)
    (by decide)).mpr (by decide)

open LoopRun in
/-- A task queued behind the swap and `quit` called before the next test: `loop` returns
and the task is never run. -/
theorem quit_after_swap_loses_task :
    let before := [LoopAction.advance, .advance, .advance, .advance, .advance, .queueInLoop]
    let t := (before ++ .quit :: List.replicate 3 LoopAction.advance).foldl loopActionStep (enter 0)
    t.phase = .returned ∧ (before.foldl loopActionStep (enter 0)).queued = 1 ∧
      t.executed.count 0 = 0 ∧ t.pendingFunctors = [0] := by
  decide

end ChatRoom.Net
