import Mathlib.Algebra.Group.Int.Defs
import ChatRoom.Core.Monitor

/-!
# CountDownLatch

`base/CountDownLatch.cpp` as a monitor: `wait` sleeps while `count_` is positive, and the
call of `countDown` that brings it to zero notifies all.
-/

namespace ChatRoom.Base

open ChatRoom.Core Monitor

/-- The calls of a latch that only lock its mutex. -/
inductive LatchCall where
  | countDown
  | getCount
  deriving DecidableEq, Repr

/-- `m_mutex` and `condition_` around `count_`. -/
def CountDownLatch : Monitor Int LatchCall where
  ready count := decide (¬ count > 0)
  leave count := count
  apply
    | .countDown, count => count - 1
    | .getCount, count => count
  signal
    | .countDown, count => if count = 0 then .all else .none
    | .getCount, _ => .none
  locked _ := true

/-- How often `countDown` has changed the count. -/
def countDowns (history : List LatchCall) : Nat := history.count .countDown

private theorem latch_ready_iff (count : Int) : CountDownLatch.ready count = true ↔ count ≤ 0 := by
  rw [CountDownLatch, decide_eq_true_eq, not_lt]

/-- Only the step from one to zero makes the latch ready, and that one notifies all. -/
theorem latch_wakes {T : Type*} :
    CountDownLatch.Wakes (fun _ : T => True) CountDownLatch.ready := by
  refine ⟨fun _ h => h, fun _ h _ => h, fun op count hbefore hafter => Or.inl ?_⟩
  have hpos : ¬ count ≤ 0 := fun h => by
    rw [(latch_ready_iff count).mpr h] at hbefore
    cases hbefore
  rw [latch_ready_iff] at hafter
  cases op with
  | countDown =>
    change count - 1 ≤ 0 at hafter
    change (if count - 1 = 0 then Signal.all else Signal.none) = Signal.all
    exact if_pos (by omega)
  | getCount => exact absurd hafter hpos

private theorem latch_lockedFor :
    CountDownLatch.LockedFor CountDownLatch.ready := fun _ _ _ _ => rfl

section Runs

variable {T : Type*} [DecidableEq T] {count : Int} {s s' : State T Int LatchCall}

/-- The count is what is left of it, and nobody has left while some of it was. -/
theorem latch_count (h : CountDownLatch.Reachable (fun _ => True) count s) :
    s.data = count - countDowns s.history ∧
      ∀ x ∈ s.departures, x.2 ≤ 0 ∧ count - countDowns s.history ≤ x.2 := by
  refine h.invariant
    (P := fun c l ops => c = count - countDowns ops ∧
      ∀ x ∈ l, x.2 ≤ 0 ∧ count - countDowns ops ≤ x.2)
    ⟨by simp [countDowns], fun x hx => absurd hx List.not_mem_nil⟩ ?_ ?_
  · rintro t c l ops ⟨hc, hl⟩ hready
    refine ⟨hc, fun x hx => ?_⟩
    rcases List.mem_append.mp hx with hx | hx
    · exact hl x hx
    · rw [List.mem_singleton.mp hx]
      exact ⟨(latch_ready_iff c).mp hready, hc.ge⟩
  · rintro op c l ops ⟨hc, hl⟩
    cases op with
    | countDown =>
      have hmore : countDowns (ops ++ [.countDown]) = countDowns ops + 1 := by
        rw [countDowns, List.count_append, countDowns]
        rfl
      rw [hmore]
      refine ⟨?_, fun x hx => ⟨(hl x hx).1, ?_⟩⟩
      · change c - 1 = _
        omega
      · have hle := (hl x hx).2
        omega
    | getCount =>
      have hsame : countDowns (ops ++ [.getCount]) = countDowns ops := by
        rw [countDowns, List.count_append, countDowns]
        rfl
      rw [hsame]
      exact ⟨hc, hl⟩

/-- `wait` returns only after the last `countDown`, and then to every thread: whatever the
order of the steps and however often a thread wakes in vain, the calls come to rest, and no
thread is left inside unless some of the count is. -/
theorem latch_releases [Fintype T] (h : CountDownLatch.Reachable (fun _ => True) count s) :
    (s.departures ≠ [] → count ≤ countDowns s.history) ∧
      (∃ s', Settling CountDownLatch (fun _ => True) s s' ∧
        AtRest CountDownLatch (fun _ => True) s') ∧
      ∀ s', Settling CountDownLatch (fun _ => True) s s' →
        AtRest CountDownLatch (fun _ => True) s' → ∀ t, s'.place t = .away ∨
          (s'.place t = .asleep ∧ countDowns s'.history < count) := by
  refine ⟨fun hne => ?_, exists_settling _ _ s, fun s' hrun hrest t => ?_⟩
  · obtain ⟨x, hx⟩ := List.exists_mem_of_ne_nil _ hne
    obtain ⟨hpos, hle⟩ := (latch_count h).2 x hx
    omega
  · refine (h.settled latch_wakes latch_lockedFor hrun hrest t).imp_right ?_
    rintro ⟨hasleep, hready⟩
    refine ⟨hasleep, ?_⟩
    have hcount := (latch_count (h.settling hrun)).1
    have hleft : ¬ s'.data ≤ 0 := fun hle => by
      rw [(latch_ready_iff _).mpr hle] at hready
      cases hready
    omega

end Runs

/-- One thread asleep at a latch of one, and another that has taken the mutex to count down. -/
theorem latch_releases_sleeper : ∃ s : State Bool Int LatchCall,
    s.place true = .asleep ∧ s.place false = .changing .countDown ∧
      ∃ s', Settling CountDownLatch (fun _ => True) s s' ∧
        AtRest CountDownLatch (fun _ => True) s' := by
  have hwait : CountDownLatch.Reachable (fun _ => True) 1
      ({ (State.start 1).move true Place.entering with owner := none } : State Bool Int LatchCall) :=
    .single ⟨_, .wait rfl trivial⟩
  have htest := hwait.tail ⟨_, .lockWait (t := true) rfl rfl⟩
  have hrefused := htest.tail ⟨_, .refuse (t := true) rfl rfl⟩
  have hasleep := hrefused.tail ⟨_, .sleep (t := true) rfl⟩
  have hcall := hasleep.tail ⟨_, .call (t := false) .countDown rfl⟩
  have hlock := hcall.tail ⟨_, .lockCall (t := false) rfl rfl rfl⟩
  exact ⟨_, rfl, rfl, (latch_releases hlock).2.1⟩

end ChatRoom.Base
