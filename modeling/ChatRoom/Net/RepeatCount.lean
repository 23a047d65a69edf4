import ChatRoom.Net.TimerQueue

/-!
# Repeat counts

A timer is registered through `EventLoop::runAt`, `runAfter` or `runEvery`, or
directly through `TimerQueue::addTimer`, each with one overload for a callback by
reference and one for an rvalue. Only the rvalue path hands the repeat count to
`Timer::Timer`; the other one leaves the default of -1, so a timer that should run
once runs for ever. A timer is never freed while the queue lives, so its address is
not given to another one.
-/

namespace ChatRoom.Net

open ChatRoom.Core

/-- The overload that is called: the callback is an lvalue or an rvalue. -/
inductive Overload where
  | constRef
  | rvalue
  deriving DecidableEq, Repr

/-- `TimerQueue::addTimer`. -/
def TimerList.addTimer (timers : TimerList) (o : Overload) (addr : Nat)
    (when interval repeatCount : Int) : TimerList :=
  match o with
  | .constRef => timers.addTimerRef addr when interval repeatCount
  | .rvalue => timers.addTimerMove addr when interval repeatCount

namespace EventLoop

/-- The timer runs once. -/
def runAt (timers : TimerList) (o : Overload) (addr : Nat) (time : Int) : TimerList :=
  timers.addTimer o addr time 0 1

/-- `runAfter`. -/
def runAfter (timers : TimerList) (o : Overload) (addr : Nat) (now delay : Int) : TimerList :=
  runAt timers o addr (now + delay)

/-- The timer runs for ever. -/
def runEvery (timers : TimerList) (o : Overload) (addr : Nat) (now interval : Int) : TimerList :=
  timers.addTimer o addr (now + interval) interval (-1)

end EventLoop

/-- A way to register a timer, with its arguments. -/
inductive Registration where
  | addTimer (when interval repeatCount : Int)
  | runAt (time : Int)
  | runAfter (now delay : Int)
  | runEvery (now interval : Int)
  deriving DecidableEq, Repr

namespace Registration

/-- The call that registers the timer. -/
def register (r : Registration) (o : Overload) (addr : Nat) (timers : TimerList) : TimerList :=
  match r with
  | .addTimer when interval repeatCount => timers.addTimer o addr when interval repeatCount
  | .runAt time => EventLoop.runAt timers o addr time
  | .runAfter now delay => EventLoop.runAfter timers o addr now delay
  | .runEvery now interval => EventLoop.runEvery timers o addr now interval

/-- The repeat count that the caller asks for. -/
def repeatCount : Registration → Int
  | .addTimer _ _ repeatCount => repeatCount
  | .runAt _ => 1
  | .runAfter _ _ => 1
  | .runEvery _ _ => -1

end Registration

/-- The queue, and the entries whose callback has been called since some moment. -/
structure TimerRun where
  timers : TimerList
  called : List TimerEntry
  deriving DecidableEq, Repr

/-- The entries whose callback an operation calls. -/
def TimerOp.calls (timers : TimerList) : TimerOp → List TimerEntry
  | .doTimer now => (timers.doTimer now).2
  | _ => []

/-- One operation; the timers that it runs are put down. -/
def timerRunStep (s : TimerRun) (op : TimerOp) : TimerRun :=
  ⟨timerStep s.timers op, s.called ++ op.calls s.timers⟩

/-- The address of the timer that an operation creates. -/
def TimerOp.newAddr? : TimerOp → Option Nat
  | .addTimerRef addr _ _ _ => some addr
  | .addTimerMove addr _ _ _ => some addr
  | _ => none

/-- The entries that point to a timer. -/
def entriesOf (addr : Nat) (timers : List TimerEntry) : List TimerEntry :=
  timers.filter fun e => e.timer.addr = addr

/-- How often the callback of a timer has been called. -/
def TimerRun.callsOf (s : TimerRun) (addr : Nat) : Nat := (entriesOf addr s.called).length

/-- After these operations the callback has run at most `k` times, and after the `k`-th run
the timer has left the set. -/
def RunsAtMost (k : Int) (addr : Nat) (s : TimerRun) : Prop :=
  (s.callsOf addr : Int) ≤ k ∧ ((s.callsOf addr : Int) = k → entriesOf addr s.timers = [])

/-- No pass of the run drops the timer. -/
def NeverDropped (addr : Nat) (s : TimerRun) (ops : List TimerOp) : Prop :=
  ∀ t now, Visits timerRunStep s ops t (.doTimer now) →
    entriesOf addr t.timers ≠ [] → entriesOf addr (t.timers.doTimer now).1 ≠ []

/-- The repeat count of a registration is honoured in every queue, at every fresh address and
over every later run. -/
def CountHonoured (r : Registration) (o : Overload) : Prop :=
  ∀ (timers : TimerList) (addr : Nat) (ops : List TimerOp), entriesOf addr timers = [] →
    (∀ op ∈ ops, op.newAddr? ≠ some addr) →
    (1 ≤ r.repeatCount → RunsAtMost r.repeatCount addr
      (ops.foldl timerRunStep ⟨r.register o addr timers, []⟩)) ∧
    (r.repeatCount = -1 → NeverDropped addr ⟨r.register o addr timers, []⟩ ops)

/-! ## The entries of one timer -/

section Entries

variable {addr : Nat}

private theorem entriesOf_cons_self {e : TimerEntry} (h : e.timer.addr = addr)
    (timers : List TimerEntry) :
    entriesOf addr (e :: timers) = e :: entriesOf addr timers := by
  simp only [entriesOf, List.filter_cons, h, decide_true, if_true]

private theorem entriesOf_cons_of_ne {e : TimerEntry} (h : e.timer.addr ≠ addr)
    (timers : List TimerEntry) : entriesOf addr (e :: timers) = entriesOf addr timers := by
  simp only [entriesOf, List.filter_cons, h, decide_false, Bool.false_eq_true, if_false]

private theorem entriesOf_append (l l' : List TimerEntry) :
    entriesOf addr (l ++ l') = entriesOf addr l ++ entriesOf addr l' :=
  List.filter_append ..

private theorem entriesOf_insertEntry_of_ne {e : TimerEntry} (h : e.timer.addr ≠ addr)
    (timers : TimerList) : entriesOf addr (timers.insertEntry e) = entriesOf addr timers := by
  induction timers with
  | nil => exact entriesOf_cons_of_ne h []
  | cons a rest ih =>
    simp only [TimerList.insertEntry]
    split
    · exact entriesOf_cons_of_ne h _
    · split
      · by_cases ha : a.timer.addr = addr
        · rw [entriesOf_cons_self ha, entriesOf_cons_self ha, ih]
        · rw [entriesOf_cons_of_ne ha, entriesOf_cons_of_ne ha, ih]
      · rfl

/-- A new timer gets one entry. -/
theorem entriesOf_insertEntry_self {e : TimerEntry} (h : e.timer.addr = addr) {timers : TimerList}
    (hfresh : entriesOf addr timers = []) : entriesOf addr (timers.insertEntry e) = [e] := by
  induction timers with
  | nil => exact entriesOf_cons_self h []
  | cons a rest ih =>
    have ha : a.timer.addr ≠ addr := by
      intro ha
      rw [entriesOf_cons_self ha] at hfresh
      cases hfresh
    rw [entriesOf_cons_of_ne ha] at hfresh
    simp only [TimerList.insertEntry]
    split
    · rw [entriesOf_cons_self h, entriesOf_cons_of_ne ha, hfresh]
    · next hea =>
      split
      · rw [entriesOf_cons_of_ne ha, ih hfresh]
      · next hae =>
        -- the pairs would be equal, and so would the addresses
        unfold TimerEntry.Before at hea hae
        omega

private theorem entriesOf_cancelTimerInLoop_self (off : Bool) (timers : TimerList) :
    entriesOf addr (timers.cancelTimerInLoop addr off) =
      (entriesOf addr timers).modifyHead fun e => { e with timer := e.timer.cancel off } := by
  induction timers with
  | nil => rfl
  | cons e rest ih =>
    simp only [TimerList.cancelTimerInLoop]
    split
    · next h =>
      rw [entriesOf_cons_self h]
      exact entriesOf_cons_self (e := { e with timer := e.timer.cancel off }) h rest
    · next h => rw [entriesOf_cons_of_ne h, entriesOf_cons_of_ne h, ih]

private theorem entriesOf_cancelTimerInLoop_of_ne {other : Nat} (h : other ≠ addr) (off : Bool)
    (timers : TimerList) :
    entriesOf addr (timers.cancelTimerInLoop other off) = entriesOf addr timers := by
  induction timers with
  | nil => rfl
  | cons e rest ih =>
    simp only [TimerList.cancelTimerInLoop]
    split
    · next he =>
      have hne : e.timer.addr ≠ addr := he ▸ h
      rw [entriesOf_cons_of_ne hne]
      exact entriesOf_cons_of_ne (e := { e with timer := e.timer.cancel off }) hne rest
    · by_cases he : e.timer.addr = addr
      · rw [entriesOf_cons_self he, entriesOf_cons_self he, ih]
      · rw [entriesOf_cons_of_ne he, entriesOf_cons_of_ne he, ih]

private theorem entriesOf_removeTimerInLoop_self (timers : TimerList) :
    entriesOf addr (timers.removeTimerInLoop addr) = (entriesOf addr timers).tail := by
  induction timers with
  | nil => rfl
  | cons e rest ih =>
    simp only [TimerList.removeTimerInLoop]
    split
    · next h => rw [entriesOf_cons_self h, List.tail_cons]
    · next h => rw [entriesOf_cons_of_ne h, entriesOf_cons_of_ne h, ih]

private theorem entriesOf_removeTimerInLoop_of_ne {other : Nat} (h : other ≠ addr)
    (timers : TimerList) :
    entriesOf addr (timers.removeTimerInLoop other) = entriesOf addr timers := by
  induction timers with
  | nil => rfl
  | cons e rest ih =>
    simp only [TimerList.removeTimerInLoop]
    split
    · next he => exact (entriesOf_cons_of_ne (he ▸ h) rest).symm
    · by_cases he : e.timer.addr = addr
      · rw [entriesOf_cons_self he, entriesOf_cons_self he, ih]
      · rw [entriesOf_cons_of_ne he, entriesOf_cons_of_ne he, ih]

/-- A due timer runs, and goes back to its place unless it was its last time. -/
theorem doTimer_cons_of_due {now : Int} {e : TimerEntry} (h : e.Due now) (rest : TimerList) :
    TimerList.doTimer now (e :: rest) =
      (if e.timer.run.1.repeatCount = 0 then (rest.doTimer now).1
        else { e with timer := e.timer.run.1 } :: (rest.doTimer now).1,
        if e.timer.canceled then (rest.doTimer now).2 else e :: (rest.doTimer now).2) := by
  simp only [TimerList.doTimer, if_pos h, Timer.run_called]
  cases e.timer.canceled <;> rfl

/-- The pass ends at the first timer that is not due. -/
theorem doTimer_cons_of_not_due {now : Int} {e : TimerEntry} (h : ¬ e.Due now) (rest : TimerList) :
    TimerList.doTimer now (e :: rest) = (e :: rest, []) := by
  simp only [TimerList.doTimer, if_neg h]

private theorem addr_ne_of_entriesOf_cons {e : TimerEntry} {rest : List TimerEntry}
    (h : entriesOf addr (e :: rest) = []) : e.timer.addr ≠ addr := by
  intro he
  rw [entriesOf_cons_self he] at h
  cases h

/-- A pass treats the entries of other timers without touching those of this one. -/
theorem entriesOf_doTimer_cons_of_ne {now : Int} {e : TimerEntry} (hdue : e.Due now)
    (h : e.timer.addr ≠ addr) (rest : TimerList) :
    entriesOf addr (TimerList.doTimer now (e :: rest)).1 = entriesOf addr (rest.doTimer now).1 ∧
      entriesOf addr (TimerList.doTimer now (e :: rest)).2 =
        entriesOf addr (rest.doTimer now).2 := by
  have hrun : e.timer.run.1.addr ≠ addr := by
    rw [Timer.run_addr]
    exact h
  rw [doTimer_cons_of_due hdue]
  constructor
  · dsimp only
    split
    · rfl
    · exact entriesOf_cons_of_ne hrun _
  · dsimp only
    split
    · rfl
    · exact entriesOf_cons_of_ne h _

/-- A pass neither calls nor adds a timer that is not in the set. -/
theorem entriesOf_doTimer_of_nil (now : Int) {timers : TimerList}
    (h : entriesOf addr timers = []) :
    entriesOf addr (timers.doTimer now).1 = [] ∧ entriesOf addr (timers.doTimer now).2 = [] := by
  induction timers with
  | nil => exact ⟨rfl, rfl⟩
  | cons e rest ih =>
    have he := addr_ne_of_entriesOf_cons h
    by_cases hdue : e.Due now
    · obtain ⟨hleft, hcalled⟩ := entriesOf_doTimer_cons_of_ne hdue he rest
      rw [hleft, hcalled]
      apply ih
      rw [← h, entriesOf_cons_of_ne he]
    · rw [doTimer_cons_of_not_due hdue]
      exact ⟨h, rfl⟩

/-- What a pass does to a timer with one entry: nothing, or it runs the timer and drops it
when its count has come to 0. -/
theorem entriesOf_doTimer_of_single (now : Int) {timers : TimerList} {e : TimerEntry}
    (h : entriesOf addr timers = [e]) :
    (entriesOf addr (timers.doTimer now).1 = [e] ∧ entriesOf addr (timers.doTimer now).2 = []) ∨
    (entriesOf addr (timers.doTimer now).1 =
        (if e.timer.run.1.repeatCount = 0 then [] else [{ e with timer := e.timer.run.1 }]) ∧
      entriesOf addr (timers.doTimer now).2 = if e.timer.canceled then [] else [e]) := by
  induction timers with
  | nil => cases h
  | cons a rest ih =>
    by_cases hdue : a.Due now
    · by_cases ha : a.timer.addr = addr
      · rw [entriesOf_cons_self ha, List.cons.injEq] at h
        obtain ⟨rfl, hrest⟩ := h
        obtain ⟨hleft, hcalled⟩ := entriesOf_doTimer_of_nil now hrest
        have hrun : a.timer.run.1.addr = addr := by
          rw [Timer.run_addr]
          exact ha
        rw [doTimer_cons_of_due hdue]
        refine Or.inr ⟨?_, ?_⟩
        · dsimp only
          split
          · exact hleft
          · rw [entriesOf_cons_self hrun, hleft]
        · dsimp only
          split
          · exact hcalled
          · rw [entriesOf_cons_self ha, hcalled]
      · obtain ⟨hleft, hcalled⟩ := entriesOf_doTimer_cons_of_ne hdue ha rest
        rw [hleft, hcalled]
        apply ih
        rw [← h, entriesOf_cons_of_ne ha]
    · rw [doTimer_cons_of_not_due hdue]
      exact Or.inl ⟨h, rfl⟩

end Entries

/-! ## One operation -/

section Steps

variable {addr : Nat} {s : TimerRun} {op : TimerOp}

private theorem callsOf_timerRunStep (s : TimerRun) (op : TimerOp) (addr : Nat) :
    (timerRunStep s op).callsOf addr =
      s.callsOf addr + (entriesOf addr (op.calls s.timers)).length := by
  rw [TimerRun.callsOf, timerRunStep, entriesOf_append, List.length_append, TimerRun.callsOf]

/-- A timer that has left the set does not come back and is not called. -/
theorem timerRunStep_of_nil (hnew : op.newAddr? ≠ some addr)
    (h : entriesOf addr s.timers = []) :
    entriesOf addr (timerRunStep s op).timers = [] ∧
      (timerRunStep s op).callsOf addr = s.callsOf addr := by
  rw [callsOf_timerRunStep]
  cases op with
  | addTimerRef other when interval repeatCount =>
    have hne : other ≠ addr := fun heq => hnew (congrArg some heq)
    exact ⟨(entriesOf_insertEntry_of_ne hne _).trans h, rfl⟩
  | addTimerMove other when interval repeatCount =>
    have hne : other ≠ addr := fun heq => hnew (congrArg some heq)
    exact ⟨(entriesOf_insertEntry_of_ne hne _).trans h, rfl⟩
  | cancel other off =>
    refine ⟨?_, rfl⟩
    by_cases hother : other = addr
    · rw [hother]
      exact (entriesOf_cancelTimerInLoop_self off _).trans (by rw [h]; rfl)
    · exact (entriesOf_cancelTimerInLoop_of_ne hother off _).trans h
  | removeTimer other =>
    refine ⟨?_, rfl⟩
    by_cases hother : other = addr
    · rw [hother]
      exact (entriesOf_removeTimerInLoop_self _).trans (by rw [h]; rfl)
    · exact (entriesOf_removeTimerInLoop_of_ne hother _).trans h
  | doTimer now =>
    obtain ⟨hleft, hcalled⟩ := entriesOf_doTimer_of_nil now h
    refine ⟨hleft, ?_⟩
    rw [TimerOp.calls, hcalled]
    rfl

/-- All an operation can do to a timer in the set: remove it, leave its count, or run it. -/
theorem timerRunStep_of_single {e : TimerEntry} (hnew : op.newAddr? ≠ some addr)
    (h : entriesOf addr s.timers = [e]) (hcount : e.timer.repeatCount ≠ 0) :
    (op = .removeTimer addr ∧ entriesOf addr (timerRunStep s op).timers = [] ∧
      (timerRunStep s op).callsOf addr = s.callsOf addr) ∨
    (∃ e', entriesOf addr (timerRunStep s op).timers = [e'] ∧
      e'.timer.repeatCount = e.timer.repeatCount ∧
      (timerRunStep s op).callsOf addr = s.callsOf addr) ∨
    (e.timer.canceled = false ∧ entriesOf addr (timerRunStep s op).timers =
        (if e.timer.run.1.repeatCount = 0 then [] else [{ e with timer := e.timer.run.1 }]) ∧
      (timerRunStep s op).callsOf addr = s.callsOf addr + 1) := by
  rw [callsOf_timerRunStep]
  cases op with
  | addTimerRef other when interval repeatCount =>
    have hne : other ≠ addr := fun heq => hnew (congrArg some heq)
    exact Or.inr (Or.inl ⟨e, (entriesOf_insertEntry_of_ne hne _).trans h, rfl, rfl⟩)
  | addTimerMove other when interval repeatCount =>
    have hne : other ≠ addr := fun heq => hnew (congrArg some heq)
    exact Or.inr (Or.inl ⟨e, (entriesOf_insertEntry_of_ne hne _).trans h, rfl, rfl⟩)
  | cancel other off =>
    refine Or.inr (Or.inl ?_)
    by_cases hother : other = addr
    · rw [hother]
      refine ⟨{ e with timer := e.timer.cancel off }, ?_, rfl, rfl⟩
      exact (entriesOf_cancelTimerInLoop_self off _).trans (by rw [h]; rfl)
    · exact ⟨e, (entriesOf_cancelTimerInLoop_of_ne hother off _).trans h, rfl, rfl⟩
  | removeTimer other =>
    by_cases hother : other = addr
    · rw [hother]
      refine Or.inl ⟨rfl, ?_, rfl⟩
      exact (entriesOf_removeTimerInLoop_self _).trans (by rw [h]; rfl)
    · exact Or.inr (Or.inl ⟨e, (entriesOf_removeTimerInLoop_of_ne hother _).trans h, rfl, rfl⟩)
  | doTimer now =>
    refine Or.inr ?_
    rw [TimerOp.calls]
    rcases entriesOf_doTimer_of_single now h with ⟨hleft, hcalled⟩ | ⟨hleft, hcalled⟩
    · rw [hcalled]
      exact Or.inl ⟨e, hleft, rfl, rfl⟩
    · rw [hcalled]
      cases hoff : e.timer.canceled with
      | false => exact Or.inr ⟨rfl, hleft, rfl⟩
      | true =>
        have hsame : e.timer.run.1 = e.timer := by simp only [Timer.run, hoff, if_true]
        rw [hsame, if_neg hcount] at hleft
        exact Or.inl ⟨_, hleft, rfl, rfl⟩

end Steps

private theorem Timer.run_repeatCount {t : Timer} (h : t.canceled = false) :
    t.run.1.repeatCount = if t.repeatCount = -1 then -1 else t.repeatCount - 1 := by
  simp only [Timer.run, h, Bool.false_eq_true, if_false]
  by_cases hforever : t.repeatCount = -1
  · simp only [hforever, ne_eq, not_true_eq_false, if_false, if_true]
  · simp only [hforever, ne_eq, not_false_eq_true, if_true, if_false]
    split <;> rfl

/-! ## Whole runs -/

/-- The timer still has as many runs as are left of its count, or it has left the set. -/
def Counted (k : Int) (addr : Nat) (s : TimerRun) : Prop :=
  (∃ e, entriesOf addr s.timers = [e] ∧ e.timer.repeatCount = k - s.callsOf addr ∧
    (s.callsOf addr : Int) < k) ∨
  (entriesOf addr s.timers = [] ∧ (s.callsOf addr : Int) ≤ k)

private theorem Counted.runsAtMost {k : Int} {addr : Nat} {s : TimerRun} (h : Counted k addr s) :
    RunsAtMost k addr s := by
  rcases h with ⟨e, _, _, hlt⟩ | ⟨hnil, hle⟩
  · exact ⟨Int.le_of_lt hlt, fun heq => absurd heq (Int.ne_of_lt hlt)⟩
  · exact ⟨hle, fun _ => hnil⟩

private theorem Counted.step {k : Int} {addr : Nat} {s : TimerRun} {op : TimerOp}
    (hnew : op.newAddr? ≠ some addr) (h : Counted k addr s) :
    Counted k addr (timerRunStep s op) := by
  rcases h with ⟨e, hentries, hcount, hlt⟩ | ⟨hnil, hle⟩
  · rcases timerRunStep_of_single hnew hentries (by omega) with ⟨_, hnil, hsame⟩ |
      ⟨e', hentries', hcount', hsame⟩ | ⟨hlive, hentries', hcalls⟩
    · exact Or.inr ⟨hnil, by omega⟩
    · exact Or.inl ⟨e', hentries', by omega, by omega⟩
    · have hrun := Timer.run_repeatCount hlive
      rw [if_neg (by omega)] at hrun
      by_cases hlast : e.timer.run.1.repeatCount = 0
      · rw [if_pos hlast] at hentries'
        exact Or.inr ⟨hentries', by omega⟩
      · rw [if_neg hlast] at hentries'
        exact Or.inl ⟨_, hentries', by dsimp only; omega, by omega⟩
  · obtain ⟨hnil', hsame⟩ := timerRunStep_of_nil hnew hnil
    exact Or.inr ⟨hnil', by omega⟩

/-- A timer without a count is in the set, or has been removed. -/
def Forever (addr : Nat) (s : TimerRun) : Prop :=
  (∃ e, entriesOf addr s.timers = [e] ∧ e.timer.repeatCount = -1) ∨ entriesOf addr s.timers = []

/-- An operation keeps a timer without a count, unless it removes it. -/
theorem entriesOf_step_of_forever {addr : Nat} {s : TimerRun} {op : TimerOp} {e : TimerEntry}
    (hnew : op.newAddr? ≠ some addr) (h : entriesOf addr s.timers = [e])
    (hcount : e.timer.repeatCount = -1) :
    op = .removeTimer addr ∧ entriesOf addr (timerRunStep s op).timers = [] ∨
      ∃ e', entriesOf addr (timerRunStep s op).timers = [e'] ∧ e'.timer.repeatCount = -1 := by
  rcases timerRunStep_of_single hnew h (by omega) with ⟨hop, hnil, _⟩ | ⟨e', hentries', hcount', _⟩ |
    ⟨hlive, hentries', _⟩
  · exact Or.inl ⟨hop, hnil⟩
  · exact Or.inr ⟨e', hentries', hcount'.trans hcount⟩
  · have hrun := Timer.run_repeatCount hlive
    rw [if_pos hcount] at hrun
    rw [if_neg (by omega)] at hentries'
    exact Or.inr ⟨_, hentries', hrun⟩

private theorem Forever.step {addr : Nat} {s : TimerRun} {op : TimerOp}
    (hnew : op.newAddr? ≠ some addr)
    (h : Forever addr s) : Forever addr (timerRunStep s op) := by
  rcases h with ⟨e, hentries, hcount⟩ | hnil
  · rcases entriesOf_step_of_forever hnew hentries hcount with ⟨_, hnil⟩ | hkept
    · exact Or.inr hnil
    · exact Or.inl hkept
  · exact Or.inr (timerRunStep_of_nil hnew hnil).1

private theorem mem_of_visits {σ ι : Type*} {step : σ → ι → σ} {s t : σ} {inputs : List ι} {i : ι}
    (h : Visits step s inputs t i) : i ∈ inputs := by
  obtain ⟨before, after, rfl, _⟩ := h
  exact List.mem_append_right _ (List.mem_cons_self ..)

private theorem neverDropped_of_forever {addr : Nat} {s : TimerRun} {ops : List TimerOp}
    (hnew : ∀ op ∈ ops, op.newAddr? ≠ some addr) (h : Forever addr s) :
    NeverDropped addr s ops := by
  intro t now hv hin
  have hforever : Forever addr t := hv.invariant_of_visits h
    fun u op hu hf => hf.step (hnew op (mem_of_visits hu))
  rcases hforever with ⟨e, hentries, hcount⟩ | hnil
  · have hpass : (TimerOp.doTimer now).newAddr? ≠ some addr := by simp [TimerOp.newAddr?]
    rcases entriesOf_step_of_forever hpass hentries hcount with ⟨hop, _⟩ | ⟨e', hentries', _⟩
    · cases hop
    · have hleft : entriesOf addr (t.timers.doTimer now).1 = [e'] := hentries'
      rw [hleft]
      exact List.cons_ne_nil _ _
  · exact absurd hnil hin

/-- The repeat count that the new timer holds. -/
def Registration.heldCount (r : Registration) : Overload → Int
  | .constRef => -1
  | .rvalue => r.repeatCount

/-- Every registration inserts one timer, whose count is lost on the path by reference. -/
theorem Registration.register_eq (r : Registration) (o : Overload) (addr : Nat)
    (timers : TimerList) :
    ∃ when interval, r.register o addr timers =
      timers.insertEntry ⟨when, addr, when, interval, r.heldCount o, false⟩ := by
  cases r <;> cases o <;> exact ⟨_, _, rfl⟩

private theorem entriesOf_register (r : Registration) (o : Overload) {addr : Nat}
    {timers : TimerList}
    (hfresh : entriesOf addr timers = []) :
    ∃ e, entriesOf addr (r.register o addr timers) = [e] ∧
      e.timer.repeatCount = r.heldCount o := by
  obtain ⟨when, interval, hregister⟩ := r.register_eq o addr timers
  rw [hregister]
  refine ⟨⟨when, addr, when, interval, r.heldCount o, false⟩, ?_, rfl⟩
  apply entriesOf_insertEntry_self _ hfresh
  rfl

/-- A timer alone in the queue and without a count is called in each of `n` late passes. -/
theorem callsOf_replicate {addr : Nat} {now : Int} (n : Nat) {s : TimerRun} {key : Int} {t : Timer}
    (htimers : s.timers = [⟨key, t⟩]) (haddr : t.addr = addr) (hcount : t.repeatCount = -1)
    (hlive : t.canceled = false)
    (hlate : t.expiration + (n * t.interval.natAbs : Nat) ≤ now) :
    ((List.replicate n (TimerOp.doTimer now)).foldl timerRunStep s).callsOf addr =
      s.callsOf addr + n := by
  induction n generalizing s t with
  | zero => rfl
  | succ n ih =>
    rw [Nat.succ_mul] at hlate
    have hdue : TimerEntry.Due now ⟨key, t⟩ := by
      unfold TimerEntry.Due
      dsimp only
      omega
    have hrun : t.run.1 = { t with expiration := t.expiration + t.interval } := by
      simp only [Timer.run, hlive, Bool.false_eq_true, if_false, hcount, ne_eq, not_true_eq_false]
    have hpass : TimerList.doTimer now [⟨key, t⟩] =
        ([⟨key, { t with expiration := t.expiration + t.interval }⟩], [⟨key, t⟩]) := by
      rw [doTimer_cons_of_due hdue, hrun]
      simp only [hcount, hlive, Bool.false_eq_true, if_false, TimerList.doTimer]
      rfl
    have hnext : (timerRunStep s (.doTimer now)).timers =
        [⟨key, { t with expiration := t.expiration + t.interval }⟩] := by
      rw [timerRunStep, htimers]
      exact congrArg Prod.fst hpass
    have hcalled : (timerRunStep s (.doTimer now)).callsOf addr = s.callsOf addr + 1 := by
      rw [callsOf_timerRunStep, htimers, TimerOp.calls, hpass, entriesOf_cons_self haddr]
      rfl
    rw [List.replicate_succ, List.foldl_cons, ih hnext haddr hcount hlive (by dsimp only; omega),
      hcalled]
    omega

/-- The repeat count of a registration is honoured exactly when the callback is an rvalue or
there is no count to honour. -/
theorem repeat_count_honoured_iff (r : Registration) (o : Overload) :
    CountHonoured r o ↔ o = .rvalue ∨ r.repeatCount < 1 := by
  constructor
  · intro h
    cases o with
    | rvalue => exact Or.inl rfl
    | constRef =>
      refine Or.inr (Int.not_le.mp fun hk => ?_)
      obtain ⟨when, interval, hregister⟩ := r.register_eq .constRef 0 []
      obtain ⟨k, hk'⟩ := Int.eq_ofNat_of_zero_le (Int.le_trans (by decide) hk)
      -- one pass more than the count allows, all of them late enough
      have hruns := (h [] 0 (List.replicate (k + 1)
        (.doTimer (when + ((k + 1) * interval.natAbs : Nat)))) rfl (by
          intro op hop
          rw [List.eq_of_mem_replicate hop]
          simp [TimerOp.newAddr?])).1 hk
      rw [hregister, TimerList.insertEntry] at hruns
      have hcalls := callsOf_replicate (k + 1)
        (s := ⟨[⟨when, 0, when, interval, r.heldCount .constRef, false⟩], []⟩) rfl rfl rfl rfl
        (Int.le_refl (when + ((k + 1) * interval.natAbs : Nat)))
      have hle := hruns.1
      rw [hcalls, hk'] at hle
      simp only [TimerRun.callsOf, entriesOf, List.filter_nil, List.length_nil] at hle
      omega
  · intro h timers addr ops hfresh hnew
    obtain ⟨e, hentries, hcount⟩ := entriesOf_register r o hfresh
    constructor
    · intro hk
      cases h.resolve_right (Int.not_lt.mpr hk)
      apply Counted.runsAtMost
      apply foldl_invariant_of_visits
      · exact Or.inl ⟨e, hentries, hcount.trans (Int.sub_zero _).symm, hk⟩
      · intro s op hv hs
        exact hs.step (hnew op (mem_of_visits hv))
    · intro hforever
      apply neverDropped_of_forever hnew
      refine Or.inl ⟨e, hentries, hcount.trans ?_⟩
      cases o with
      | constRef => rfl
      | rvalue => exact hforever

/-- A timer registered to run once at 10, by reference, runs in both of two passes. -/
theorem run_once_runs_twice :
    ([.doTimer 10, .doTimer 20].foldl timerRunStep
        ⟨EventLoop.runAt [] .constRef 1 10, []⟩).callsOf 1 = 2 ∧
      ¬ CountHonoured (.runAt 10) .constRef := by
  have hcalls : ([.doTimer 10, .doTimer 20].foldl timerRunStep
      ⟨EventLoop.runAt [] .constRef 1 10, []⟩).callsOf 1 = 2 := by decide
  refine ⟨hcalls, fun h => ?_⟩
  have hruns := (h [] 1 [.doTimer 10, .doTimer 20] rfl (by decide)).1 (by decide)
  have hle := hruns.1
  revert hle
  decide

end ChatRoom.Net
