import ChatRoom.Core.Run

/-!
# Timer and TimerQueue

`std::set<std::pair<Timestamp, Timer*>>` is a list kept in the order of the
set: by the expiration captured at insertion, then by the address of the timer.
`Timer::run` moves the expiration of the timer itself and leaves the captured
one alone, so the two may disagree. Calls are those made in the loop thread;
callbacks are taken not to touch the queue. Times are integers of microseconds.
-/

namespace ChatRoom.Net

open ChatRoom.Core

/-- A timer object, with its address; the sequence number is never compared. -/
structure Timer where
  addr : Nat
  expiration : Int
  interval : Int
  repeatCount : Int
  canceled : Bool
  deriving DecidableEq, Repr

namespace Timer

/-- The state of the timer after `run`, and whether the callback was called. -/
def run (t : Timer) : Timer × Bool :=
  if t.canceled then (t, false)
  else if t.repeatCount ≠ -1 then
    if t.repeatCount - 1 = 0 then ({ t with repeatCount := t.repeatCount - 1 }, true)
    else ({ t with repeatCount := t.repeatCount - 1, expiration := t.expiration + t.interval }, true)
  else ({ t with expiration := t.expiration + t.interval }, true)

/-- `cancel`. -/
def cancel (t : Timer) (off : Bool) : Timer := { t with canceled := off }

end Timer

/-- An element of `m_timers`: the expiration at insertion and the timer. -/
structure TimerEntry where
  key : Int
  timer : Timer
  deriving DecidableEq, Repr

namespace TimerEntry

/-- The order of `std::pair<Timestamp, Timer*>`. -/
def Before (a b : TimerEntry) : Prop :=
  a.key < b.key ∨ (a.key = b.key ∧ a.timer.addr < b.timer.addr)

instance (a b : TimerEntry) : Decidable (a.Before b) := inferInstanceAs (Decidable (_ ∨ _))

/-- The test of `doTimer`. -/
def Due (now : Int) (e : TimerEntry) : Prop := e.timer.expiration ≤ now

instance (now : Int) (e : TimerEntry) : Decidable (e.Due now) := inferInstanceAs (Decidable (_ ≤ _))

end TimerEntry

/-- The timers in the order of the set. -/
abbrev TimerList := List TimerEntry

namespace TimerList

/-- `std::set::insert`: an equal pair is not inserted again. -/
def insertEntry (e : TimerEntry) : TimerList → TimerList
  | [] => [e]
  | a :: rest =>
    if e.Before a then e :: a :: rest
    else if a.Before e then a :: insertEntry e rest
    else a :: rest

/-- A timer goes in at the place of its expiration. -/
def insert (timers : TimerList) (t : Timer) : TimerList := insertEntry ⟨t.expiration, t⟩ timers

/-- The overload for a callback by reference drops the repeat count it is given. -/
def addTimerRef (timers : TimerList) (addr : Nat) (when interval _repeatCount : Int) : TimerList :=
  insert timers ⟨addr, when, interval, -1, false⟩

/-- The overload for a callback by rvalue passes the repeat count on. -/
def addTimerMove (timers : TimerList) (addr : Nat) (when interval repeatCount : Int) : TimerList :=
  insert timers ⟨addr, when, interval, repeatCount, false⟩

/-- Erase the first entry that points to the timer. -/
def removeTimerInLoop (addr : Nat) : TimerList → TimerList
  | [] => []
  | e :: rest => if e.timer.addr = addr then rest else e :: removeTimerInLoop addr rest

/-- Switch the first entry that points to the timer off or on. -/
def cancelTimerInLoop (addr : Nat) (off : Bool) : TimerList → TimerList
  | [] => []
  | e :: rest =>
    if e.timer.addr = addr then { e with timer := e.timer.cancel off } :: rest
    else e :: cancelTimerInLoop addr off rest

/-- One pass: the list it leaves and the entries, as they were, whose callback it called. -/
def doTimer (now : Int) : TimerList → TimerList × List TimerEntry
  | [] => ([], [])
  | e :: rest =>
    if e.Due now then
      let after := e.timer.run
      let later := doTimer now rest
      (if after.1.repeatCount = 0 then later.1 else { e with timer := after.1 } :: later.1,
        if after.2 then e :: later.2 else later.2)
    else (e :: rest, [])

end TimerList

/-- A call on the queue; `addr` is the address the allocator gave the new timer. -/
inductive TimerOp where
  | addTimerRef (addr : Nat) (when interval repeatCount : Int)
  | addTimerMove (addr : Nat) (when interval repeatCount : Int)
  | cancel (addr : Nat) (off : Bool)
  | removeTimer (addr : Nat)
  | doTimer (now : Int)
  deriving DecidableEq, Repr

/-- One operation of the queue. -/
def timerStep (timers : TimerList) : TimerOp → TimerList
  | .addTimerRef addr when interval repeatCount =>
    timers.addTimerRef addr when interval repeatCount
  | .addTimerMove addr when interval repeatCount =>
    timers.addTimerMove addr when interval repeatCount
  | .cancel addr off => timers.cancelTimerInLoop addr off
  | .removeTimer addr => timers.removeTimerInLoop addr
  | .doTimer now => (timers.doTimer now).1

/-- The clock reading of a pass. -/
def TimerOp.now? : TimerOp → Option Int
  | .doTimer now => some now
  | _ => none

/-- The clock readings of a run never decrease. -/
def ClockOrdered (ops : List TimerOp) : Prop := (ops.filterMap TimerOp.now?).Pairwise (· ≤ ·)

/-- What a pass is for: it calls every live due timer, and none that is not due. -/
def RunsDue (timers : TimerList) (now : Int) : Prop :=
  (∀ e ∈ timers, e.timer.canceled = false → e.Due now → e ∈ (timers.doTimer now).2) ∧
  (∀ e ∈ (timers.doTimer now).2, e.Due now)

/-- No entry that is not due stands, in the order of the set, before a live due one. -/
def Unblocked (timers : TimerList) (now : Int) : Prop :=
  timers.Pairwise fun a b => b.timer.canceled = false → b.Due now → a.Due now

/-! ## The set stays a set -/

/-- The set holds no two entries with the same pair. -/
def Ordered (timers : TimerList) : Prop := timers.Pairwise TimerEntry.Before

/-- `Before` is transitive. -/
theorem TimerEntry.Before.trans {a b c : TimerEntry} (hab : a.Before b) (hbc : b.Before c) :
    a.Before c := by
  unfold TimerEntry.Before at *
  omega

private theorem TimerEntry.not_before_self (a : TimerEntry) : ¬ a.Before a := by
  unfold TimerEntry.Before
  omega

private theorem mem_insertEntry {e x : TimerEntry} {timers : TimerList}
    (h : x ∈ timers.insertEntry e) : x = e ∨ x ∈ timers := by
  induction timers with
  | nil => exact Or.inl (List.mem_singleton.mp h)
  | cons a rest ih =>
    unfold TimerList.insertEntry at h
    split at h
    · exact List.mem_cons.mp h
    · split at h
      · rcases List.mem_cons.mp h with rfl | h
        · exact Or.inr (List.mem_cons_self ..)
        · exact (ih h).imp id (List.mem_cons_of_mem _)
      · exact Or.inr h

/-- An insertion keeps the set ordered. -/
theorem Ordered.insertEntry {timers : TimerList} (h : Ordered timers) (e : TimerEntry) :
    Ordered (timers.insertEntry e) := by
  induction timers with
  | nil => exact List.pairwise_singleton _ e
  | cons a rest ih =>
    obtain ⟨ha, hrest⟩ := List.pairwise_cons.mp h
    unfold TimerList.insertEntry
    split
    · next hea =>
      refine List.pairwise_cons.mpr ⟨?_, h⟩
      intro x hx
      rcases List.mem_cons.mp hx with rfl | hx
      · exact hea
      · exact hea.trans (ha x hx)
    · split
      · next hae =>
        refine List.pairwise_cons.mpr ⟨?_, ih hrest⟩
        intro x hx
        rcases mem_insertEntry hx with rfl | hx
        · exact hae
        · exact ha x hx
      · exact h

private theorem removeTimerInLoop_sublist (addr : Nat) (timers : TimerList) :
    (timers.removeTimerInLoop addr).Sublist timers := by
  induction timers with
  | nil => exact List.Sublist.refl _
  | cons e rest ih =>
    unfold TimerList.removeTimerInLoop
    split
    · exact List.sublist_cons_self e rest
    · exact ih.cons_cons e

/-- An entry keeps its place in the set as long as its pair is the same. -/
def TimerEntry.SamePlace (a b : TimerEntry) : Prop := a.key = b.key ∧ a.timer.addr = b.timer.addr

private theorem TimerEntry.Before.of_samePlace {a a' b b' : TimerEntry} (h : a.Before b)
    (ha : a'.SamePlace a) (hb : b'.SamePlace b) : a'.Before b' := by
  obtain ⟨hak, haa⟩ := ha
  obtain ⟨hbk, hba⟩ := hb
  unfold TimerEntry.Before at *
  rw [hak, hbk, haa, hba]
  exact h

private theorem mem_cancelTimerInLoop {addr : Nat} {off : Bool} {x : TimerEntry}
    {timers : TimerList}
    (h : x ∈ timers.cancelTimerInLoop addr off) : ∃ e ∈ timers, x.SamePlace e := by
  induction timers with
  | nil => cases h
  | cons e rest ih =>
    unfold TimerList.cancelTimerInLoop at h
    split at h
    · rcases List.mem_cons.mp h with rfl | h
      · exact ⟨e, List.mem_cons_self .., rfl, rfl⟩
      · exact ⟨x, List.mem_cons_of_mem _ h, rfl, rfl⟩
    · rcases List.mem_cons.mp h with rfl | h
      · exact ⟨x, List.mem_cons_self .., rfl, rfl⟩
      · obtain ⟨y, hy, hxy⟩ := ih h
        exact ⟨y, List.mem_cons_of_mem _ hy, hxy⟩

/-- A cancelled timer stays at its place. -/
theorem Ordered.cancelTimerInLoop {timers : TimerList} (h : Ordered timers) (addr : Nat)
    (off : Bool) : Ordered (timers.cancelTimerInLoop addr off) := by
  induction timers with
  | nil => exact h
  | cons e rest ih =>
    obtain ⟨he, hrest⟩ := List.pairwise_cons.mp h
    unfold TimerList.cancelTimerInLoop
    split
    · exact List.pairwise_cons.mpr ⟨fun x hx => (he x hx).of_samePlace ⟨rfl, rfl⟩ ⟨rfl, rfl⟩, hrest⟩
    · refine List.pairwise_cons.mpr ⟨?_, ih hrest⟩
      intro x hx
      obtain ⟨y, hy, hxy⟩ := mem_cancelTimerInLoop hx
      exact (he y hy).of_samePlace ⟨rfl, rfl⟩ hxy

/-- A timer keeps its address when it runs. -/
@[simp] theorem Timer.run_addr (t : Timer) : t.run.1.addr = t.addr := by
  unfold Timer.run
  split
  · rfl
  · split
    · split <;> rfl
    · rfl

/-- A timer that is not cancelled calls its callback. -/
@[simp] theorem Timer.run_called (t : Timer) : t.run.2 = !t.canceled := by
  unfold Timer.run
  split
  · next h => simp only [h, Bool.not_true]
  · next h =>
    have hf : t.canceled = false := Bool.eq_false_iff.mpr h
    rw [hf]
    split
    · split <;> rfl
    · rfl

private theorem mem_doTimer {now : Int} {x : TimerEntry} {timers : TimerList}
    (h : x ∈ (timers.doTimer now).1) : ∃ e ∈ timers, x.SamePlace e := by
  induction timers with
  | nil => cases h
  | cons e rest ih =>
    have hlater : x ∈ (TimerList.doTimer now rest).1 → ∃ a ∈ e :: rest, x.SamePlace a := by
      intro hx
      obtain ⟨y, hy, hxy⟩ := ih hx
      exact ⟨y, List.mem_cons_of_mem _ hy, hxy⟩
    unfold TimerList.doTimer at h
    split at h
    · simp only at h
      split at h
      · exact hlater h
      · rcases List.mem_cons.mp h with rfl | h
        · exact ⟨e, List.mem_cons_self .., rfl, Timer.run_addr _⟩
        · exact hlater h
    · exact ⟨x, h, rfl, rfl⟩

/-- A pass keeps the set ordered. -/
theorem Ordered.doTimer {timers : TimerList} (h : Ordered timers) (now : Int) :
    Ordered (timers.doTimer now).1 := by
  induction timers with
  | nil => exact h
  | cons e rest ih =>
    obtain ⟨he, hrest⟩ := List.pairwise_cons.mp h
    unfold TimerList.doTimer
    split
    · simp only
      split
      · exact ih hrest
      · refine List.pairwise_cons.mpr ⟨?_, ih hrest⟩
        intro x hx
        obtain ⟨y, hy, hxy⟩ := mem_doTimer hx
        exact (he y hy).of_samePlace ⟨rfl, Timer.run_addr _⟩ hxy
    · exact h

/-- Every operation keeps the set ordered. -/
theorem Ordered.timerStep {timers : TimerList} (h : Ordered timers) (op : TimerOp) :
    Ordered (timerStep timers op) := by
  cases op with
  | addTimerRef addr when interval repeatCount => exact h.insertEntry _
  | addTimerMove addr when interval repeatCount => exact h.insertEntry _
  | cancel addr off => exact h.cancelTimerInLoop addr off
  | removeTimer addr => exact List.Pairwise.sublist (removeTimerInLoop_sublist addr timers) h
  | doTimer now => exact h.doTimer now

/-- A set that is ordered has no entry twice. -/
theorem Ordered.nodup {timers : TimerList} (h : Ordered timers) : timers.Nodup := by
  refine List.Pairwise.imp ?_ h
  intro a b hab heq
  subst heq
  exact a.not_before_self hab

/-! ## What a pass runs -/

/-- A pass calls the live timers of the longest due stretch at the front of the set. -/
theorem doTimer_called (now : Int) (timers : TimerList) :
    (timers.doTimer now).2 =
      (timers.takeWhile (fun e => decide (e.Due now))).filter (fun e => !e.timer.canceled) := by
  induction timers with
  | nil => rfl
  | cons e rest ih =>
    unfold TimerList.doTimer
    split
    · next hdue =>
      simp only [Timer.run_called, ih, List.takeWhile_cons, hdue, decide_true, if_true,
        List.filter_cons]
    · next hdue => simp only [List.takeWhile_cons, hdue, decide_false, Bool.false_eq_true, if_false,
        List.filter_nil]

/-- A pass never calls a timer before its time. -/
theorem due_of_called {now : Int} {timers : TimerList} {e : TimerEntry}
    (h : e ∈ (timers.doTimer now).2) : e.Due now := by
  rw [doTimer_called] at h
  have hall := List.all_takeWhile (p := fun e : TimerEntry => decide (e.Due now)) (l := timers)
  exact of_decide_eq_true (List.all_eq_true.mp hall e (List.mem_filter.mp h).1)

/-- A pass over a set does its work exactly when nothing that is not due blocks it. -/
theorem runsDue_iff_unblocked {timers : TimerList} {now : Int} (h : timers.Nodup) :
    RunsDue timers now ↔ Unblocked timers now := by
  have hsecond : ∀ e ∈ (timers.doTimer now).2, e.Due now := fun e he => due_of_called he
  rw [RunsDue, and_iff_left hsecond]
  simp only [doTimer_called, List.mem_filter]
  clear hsecond
  induction timers with
  | nil => simp only [List.not_mem_nil, false_implies, implies_true, Unblocked, List.Pairwise.nil]
  | cons a rest ih =>
    obtain ⟨hnot, hnodup⟩ := List.nodup_cons.mp h
    rw [Unblocked, List.pairwise_cons]
    by_cases ha : a.Due now
    · simp only [ha, implies_true, true_and, List.takeWhile_cons, decide_true, if_true]
      refine Iff.trans ?_ (ih hnodup)
      constructor
      · intro hall e he hlive hdue
        obtain ⟨hmem, hc⟩ := hall e (List.mem_cons_of_mem _ he) hlive hdue
        have hne : e ≠ a := fun heq => hnot (heq ▸ he)
        exact ⟨(List.mem_cons.mp hmem).resolve_left hne, hc⟩
      · intro hall e he hlive hdue
        rcases List.mem_cons.mp he with rfl | he
        · exact ⟨List.mem_cons_self .., by rw [hlive]; rfl⟩
        · obtain ⟨hmem, hc⟩ := hall e he hlive hdue
          exact ⟨List.mem_cons_of_mem _ hmem, hc⟩
    · simp only [ha, List.takeWhile_cons, decide_false, Bool.false_eq_true, if_false,
        List.not_mem_nil, false_and, imp_false]
      constructor
      · intro hall
        have hdead : ∀ e ∈ rest, e.timer.canceled = false → ¬ e.Due now :=
          fun e he => hall e (List.mem_cons_of_mem _ he)
        refine ⟨hdead, List.pairwise_of_forall_mem_list ?_⟩
        intro x _ y hy hlive hdue
        exact absurd hdue (hdead y hy hlive)
      · rintro ⟨hdead, _⟩ e he hlive
        rcases List.mem_cons.mp he with rfl | he
        · exact ha
        · exact hdead e he hlive

/-- While no timer has moved its expiration since it was inserted, nothing is blocked. -/
theorem unblocked_of_unmoved {timers : TimerList} (h : Ordered timers)
    (hkey : ∀ e ∈ timers, e.key = e.timer.expiration) (now : Int) : Unblocked timers now := by
  refine List.Pairwise.imp_of_mem ?_ h
  intro a b ha hb hab _ hdue
  have hka := hkey a ha
  have hkb := hkey b hb
  unfold TimerEntry.Due TimerEntry.Before at *
  omega

/-- Along every run from an empty queue: the passes all do their work exactly
when each of them starts with no entry that is not due in front of a live due one. -/
theorem doTimer_runs_due_iff (ops : List TimerOp) :
    (∀ timers now, Visits timerStep [] ops timers (.doTimer now) → RunsDue timers now) ↔
      (∀ timers now, Visits timerStep [] ops timers (.doTimer now) → Unblocked timers now) := by
  have hset : ∀ timers now, Visits timerStep [] ops timers (.doTimer now) → timers.Nodup := by
    intro timers now hv
    have hord : Ordered timers :=
      hv.invariant List.Pairwise.nil (fun t op ht => Ordered.timerStep ht op)
    exact hord.nodup
  constructor
  · intro h timers now hv
    exact (runsDue_iff_unblocked (hset timers now hv)).mp (h timers now hv)
  · intro h timers now hv
    exact (runsDue_iff_unblocked (hset timers now hv)).mpr (h timers now hv)

/-- A repeating timer that has run once keeps its old place in the set, in front
of a one-shot timer that falls due before its next turn: at 30 the one-shot
timer of 20 is not run, in a run whose clock only moves forward. -/
theorem not_all_passes_run_due :
    ¬ ∀ ops, ClockOrdered ops → ∀ timers now,
      Visits timerStep [] ops timers (.doTimer now) → RunsDue timers now := by
  intro h
  let ops : List TimerOp :=
    [.addTimerMove 1 10 100 (-1), .addTimerMove 2 20 0 1, .doTimer 15, .doTimer 30]
  have hclock : ClockOrdered ops := by unfold ClockOrdered; decide
  have hpass := h ops hclock [⟨10, 1, 110, 100, -1, false⟩, ⟨20, 2, 20, 0, 1, false⟩] 30
    ⟨[.addTimerMove 1 10 100 (-1), .addTimerMove 2 20 0 1, .doTimer 15], [], rfl, by decide⟩
  exact absurd (hpass.1 ⟨20, 2, 20, 0, 1, false⟩ (by decide) rfl (by decide)) (by decide)

end ChatRoom.Net
