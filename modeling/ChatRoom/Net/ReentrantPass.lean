import ChatRoom.Net.RepeatCount
import Mathlib.Logic.Function.Iterate

/-!
# Callbacks that change the queue

`doTimer` keeps an iterator across each callback, and a callback may add, cancel or
remove timers, at once, since it runs in the loop thread. A pass is the loop of
`doTimer` taken one turn at a time; the callbacks are an arbitrary script. A new
timer has an address that no earlier one has had, since timers are not freed. The
iterator is left without an element exactly when a callback removes the timer that
is being run.
-/

namespace ChatRoom.Net

open ChatRoom.Core

namespace Timer

/-- What `run` does once the callback has returned. -/
def afterCallback (t : Timer) : Timer :=
  if t.repeatCount ≠ -1 then
    if t.repeatCount - 1 = 0 then { t with repeatCount := t.repeatCount - 1 }
    else { t with repeatCount := t.repeatCount - 1, expiration := t.expiration + t.interval }
  else { t with expiration := t.expiration + t.interval }

private theorem run_eq (t : Timer) :
    t.run = if t.canceled then (t, false) else (t.afterCallback, true) := by
  simp only [run, afterCallback]
  split
  · rfl
  · split
    · split <;> rfl
    · rfl

/-- A timer keeps its address. -/
@[simp] theorem afterCallback_addr (t : Timer) : t.afterCallback.addr = t.addr := by
  simp only [afterCallback]
  split
  · split <;> rfl
  · rfl

end Timer

/-- The addresses in the set, in its order. -/
def addrs (timers : TimerList) : List Nat := timers.map fun e => e.timer.addr

/-- The elements of `m_timers`: in the order of the set, each timer once. -/
structure TimerSet where
  timers : TimerList
  ordered : Ordered timers
  distinct : (addrs timers).Nodup

/-- A call that a callback makes on the queue. -/
inductive CallbackOp where
  | addTimer (o : Overload) (addr : Nat) (when interval repeatCount : Int)
  | cancel (addr : Nat) (off : Bool)
  | removeTimer (addr : Nat)
  deriving DecidableEq, Repr

/-- A callback is called, or a timer leaves the set. -/
inductive PassEvent where
  | ran (addr : Nat)
  | erased (addr : Nat)
  deriving DecidableEq, Repr

/-- A pass in progress. The iterator points to the timer at `cursor`, or the loop has ended. -/
structure Pass where
  timers : TimerList
  cursor : Option Nat
  /-- The addresses of all timers ever made, and the number of callbacks called. -/
  used : List Nat
  calls : Nat
  events : List PassEvent
  /-- The loop has used an iterator whose element is gone. -/
  fault : Bool
  deriving DecidableEq, Repr

/-- The element after the one with this address. -/
def nextAddr (addr : Nat) : TimerList → Option Nat
  | [] => none
  | e :: rest =>
    if e.timer.addr = addr then rest.head?.map fun e => e.timer.addr else nextAddr addr rest

/-- Change the timer at an address in place. -/
def mapTimer (addr : Nat) (f : Timer → Timer) (timers : TimerList) : TimerList :=
  timers.map fun e => if e.timer.addr = addr then { e with timer := f e.timer } else e

/-- The entry of a timer. -/
def findTimer (addr : Nat) (timers : TimerList) : Option TimerEntry :=
  timers.find? fun e => e.timer.addr = addr

namespace Pass

/-- A pass begins at the first element; `older` are addresses of timers that have left the set. -/
def start (set : TimerSet) (older : List Nat) : Pass :=
  ⟨set.timers, (addrs set.timers).head?, addrs set.timers ++ older, 0, [], false⟩

/-- One call of a callback. The allocator never gives an address twice. -/
def callbackStep (s : Pass) : CallbackOp → Pass
  | .addTimer o addr when interval repeatCount =>
    if addr ∈ s.used then s
    else
      { s with
        timers := s.timers.addTimer o addr when interval repeatCount
        used := addr :: s.used }
  | .cancel addr off => { s with timers := s.timers.cancelTimerInLoop addr off }
  | .removeTimer addr =>
    { s with
      timers := s.timers.removeTimerInLoop addr
      events := if addr ∈ addrs s.timers then s.events ++ [.erased addr] else s.events }

/-- `Timer::run` of the timer at the iterator, when it is not canceled. -/
def runCallback (callbacks : Nat → List CallbackOp) (s : Pass) (addr : Nat) : Pass :=
  let called := { s with events := s.events ++ [.ran addr], calls := s.calls + 1 }
  let s := (callbacks s.calls).foldl callbackStep called
  { s with timers := mapTimer addr Timer.afterCallback s.timers }

/-- The loop reads the element again, and erases it or steps from it. -/
def leave (s : Pass) (addr : Nat) : Pass :=
  match findTimer addr s.timers with
  | none => { s with fault := true }
  | some e =>
    if e.timer.repeatCount = 0 then
      { s with
        timers := s.timers.removeTimerInLoop addr
        events := s.events ++ [.erased addr]
        cursor := nextAddr addr s.timers }
    else { s with cursor := nextAddr addr s.timers }

end Pass

/-- One turn of the loop of `doTimer`. -/
def passStep (now : Int) (callbacks : Nat → List CallbackOp) (s : Pass) : Pass :=
  if s.fault then s
  else
    match s.cursor with
    | none => s
    | some addr =>
      match findTimer addr s.timers with
      | none => { s with fault := true }
      | some e =>
        if e.Due now then
          if e.timer.canceled then s.leave addr else (s.runCallback callbacks addr).leave addr
        else { s with cursor := none }

/-- No element of a gone iterator has been used, and no timer has run after it left the set. -/
def PassSafe (s : Pass) : Prop :=
  s.fault = false ∧ Along (fun before e => ∀ addr, e = .ran addr → .erased addr ∉ before) s.events

/-- The timer whose callback the next turn of the loop calls. -/
def Pass.Calls (now : Int) (s : Pass) (addr : Nat) : Prop :=
  s.fault = false ∧ s.cursor = some addr ∧
    ∃ e, findTimer addr s.timers = some e ∧ e.Due now ∧ e.timer.canceled = false

/-- The callback called next does not remove its own timer. -/
def NoSelfRemoval (now : Int) (callbacks : Nat → List CallbackOp) (s : Pass) : Prop :=
  ∀ addr, s.Calls now addr → .removeTimer addr ∉ callbacks s.calls

/-! ## Addresses -/

private theorem addrs_insertEntry {e : TimerEntry} {timers : TimerList}
    (h : e.timer.addr ∉ addrs timers) :
    (addrs (timers.insertEntry e)).Perm (e.timer.addr :: addrs timers) := by
  induction timers with
  | nil => exact List.Perm.refl _
  | cons a rest ih =>
    have hne : e.timer.addr ≠ a.timer.addr := fun heq => h (heq ▸ List.mem_cons_self ..)
    have hrest : e.timer.addr ∉ addrs rest := fun hmem => h (List.mem_cons_of_mem _ hmem)
    simp only [TimerList.insertEntry]
    split
    · exact List.Perm.refl _
    · split
      · exact ((ih hrest).cons _).trans (List.Perm.swap ..)
      · unfold TimerEntry.Before at *
        omega

private theorem addrs_cancelTimerInLoop (addr : Nat) (off : Bool) (timers : TimerList) :
    addrs (timers.cancelTimerInLoop addr off) = addrs timers := by
  induction timers with
  | nil => rfl
  | cons e rest ih =>
    simp only [TimerList.cancelTimerInLoop]
    split
    · rfl
    · exact congrArg (e.timer.addr :: ·) ih

private theorem addrs_removeTimerInLoop (addr : Nat) (timers : TimerList) :
    addrs (timers.removeTimerInLoop addr) = (addrs timers).erase addr := by
  induction timers with
  | nil => rfl
  | cons e rest ih =>
    simp only [TimerList.removeTimerInLoop, addrs, List.map_cons, List.erase_cons, beq_iff_eq]
    split
    · rfl
    · exact congrArg (e.timer.addr :: ·) ih

private theorem addrs_mapTimer {f : Timer → Timer} (hf : ∀ t, (f t).addr = t.addr) (addr : Nat)
    (timers : TimerList) : addrs (mapTimer addr f timers) = addrs timers := by
  rw [addrs, mapTimer, List.map_map]
  apply List.map_congr_left
  intro e _
  dsimp only [Function.comp]
  split
  · exact hf e.timer
  · rfl

private theorem findTimer_isSome {addr : Nat} {timers : TimerList} :
    (∃ e, findTimer addr timers = some e) ↔ addr ∈ addrs timers := by
  rw [← Option.isSome_iff_exists, findTimer, List.find?_isSome, addrs, List.mem_map]
  simp only [decide_eq_true_eq]

private theorem findTimer_eq_none {addr : Nat} {timers : TimerList} :
    findTimer addr timers = none ↔ addr ∉ addrs timers := by
  rw [← findTimer_isSome, not_exists]
  exact Option.eq_none_iff_forall_ne_some

/-- The next element is another one of the set. -/
theorem nextAddr_mem {addr next : Nat} {timers : TimerList} (h : nextAddr addr timers = some next) :
    next ∈ (addrs timers).erase addr := by
  induction timers with
  | nil => cases h
  | cons e rest ih =>
    simp only [nextAddr] at h
    by_cases he : e.timer.addr = addr
    · rw [if_pos he] at h
      cases rest with
      | nil => cases h
      | cons b rest =>
        cases h
        simp [addrs, he]
    · rw [if_neg he] at h
      have hkeep : (addrs (e :: rest)).erase addr = e.timer.addr :: (addrs rest).erase addr := by
        simp [addrs, he]
      rw [hkeep]
      exact List.mem_cons_of_mem _ (ih h)

/-! ## The calls of one callback -/

namespace Pass

/-- Every timer is in the set once and has its own address, and one that has left the set
neither is in it nor runs. -/
structure Valid (s : Pass) : Prop where
  distinct : (addrs s.timers).Nodup
  used : ∀ addr ∈ addrs s.timers, addr ∈ s.used
  erased : ∀ addr, .erased addr ∈ s.events → addr ∈ s.used ∧ addr ∉ addrs s.timers
  ordered : Along (fun before e => ∀ addr, e = .ran addr → .erased addr ∉ before) s.events

private theorem valid_start (set : TimerSet) (older : List Nat) : (start set older).Valid :=
  ⟨set.distinct, fun _ h => List.mem_append_left _ h, fun _ h => absurd h List.not_mem_nil,
    along_nil _⟩

/-- The timer leaves the set, and that is recorded. -/
theorem Valid.removed {s : Pass} (h : s.Valid) (addr : Nat) :
    Valid { s with
      timers := s.timers.removeTimerInLoop addr
      events := if addr ∈ addrs s.timers then s.events ++ [.erased addr] else s.events } := by
  have hsub : ∀ a, a ∈ addrs (s.timers.removeTimerInLoop addr) → a ∈ addrs s.timers := by
    intro a ha
    rw [addrs_removeTimerInLoop] at ha
    exact List.mem_of_mem_erase ha
  have hgone : addr ∉ addrs (s.timers.removeTimerInLoop addr) := by
    rw [addrs_removeTimerInLoop]
    exact fun hmem => (h.distinct.mem_erase_iff.mp hmem).1 rfl
  refine ⟨?_, fun a ha => h.used a (hsub a ha), fun a ha => ?_, ?_⟩
  · dsimp only
    rw [addrs_removeTimerInLoop]
    exact h.distinct.erase addr
  · dsimp only at ha
    split at ha
    · next hin =>
      rcases List.mem_append.mp ha with ha | ha
      · obtain ⟨hused, hout⟩ := h.erased a ha
        exact ⟨hused, fun hmem => hout (hsub a hmem)⟩
      · cases List.mem_singleton.mp ha
        exact ⟨h.used addr hin, hgone⟩
    · obtain ⟨hused, hout⟩ := h.erased a ha
      exact ⟨hused, fun hmem => hout (hsub a hmem)⟩
  · dsimp only
    split
    · exact along_concat.mpr ⟨h.ordered, fun a ha => absurd ha (by simp)⟩
    · exact h.ordered

private theorem addTimer_perm {s : Pass} (h : s.Valid) {addr : Nat} (hnew : addr ∉ s.used)
    (o : Overload)
    (when interval repeatCount : Int) :
    (addrs (s.timers.addTimer o addr when interval repeatCount)).Perm (addr :: addrs s.timers) := by
  have hout : addr ∉ addrs s.timers := fun hmem => hnew (h.used addr hmem)
  cases o with
  | constRef => exact addrs_insertEntry (e := ⟨when, addr, when, interval, -1, false⟩) hout
  | rvalue => exact addrs_insertEntry (e := ⟨when, addr, when, interval, repeatCount, false⟩) hout

private theorem Valid.callbackStep {s : Pass} (h : s.Valid) (c : CallbackOp) :
    (s.callbackStep c).Valid := by
  cases c with
  | addTimer o addr when interval repeatCount =>
    simp only [Pass.callbackStep]
    split
    · exact h
    · next hnew =>
      have hperm := addTimer_perm h hnew o when interval repeatCount
      have hout : addr ∉ addrs s.timers := fun hmem => hnew (h.used addr hmem)
      refine ⟨?_, fun a ha => ?_, fun a ha => ?_, h.ordered⟩
      · exact hperm.nodup_iff.mpr (List.nodup_cons.mpr ⟨hout, h.distinct⟩)
      · rcases List.mem_cons.mp (hperm.mem_iff.mp ha) with rfl | ha
        · exact List.mem_cons_self ..
        · exact List.mem_cons_of_mem _ (h.used a ha)
      · obtain ⟨hused, hgone⟩ := h.erased a ha
        refine ⟨List.mem_cons_of_mem _ hused, fun hmem => ?_⟩
        rcases List.mem_cons.mp (hperm.mem_iff.mp hmem) with rfl | hmem
        · exact hnew hused
        · exact hgone hmem
  | cancel addr off =>
    have hsame := addrs_cancelTimerInLoop addr off s.timers
    refine ⟨?_, fun a ha => h.used a (hsame ▸ ha), fun a ha => ?_, h.ordered⟩
    · rw [Pass.callbackStep, hsame]
      exact h.distinct
    · obtain ⟨hused, hgone⟩ := h.erased a ha
      exact ⟨hused, fun hmem => hgone (hsame ▸ hmem)⟩
  | removeTimer addr => exact h.removed addr

/-- A timer that exists is in the set after a call exactly when it was and is not removed. -/
theorem mem_callbackStep {s : Pass} (h : s.Valid) {addr : Nat} (hused : addr ∈ s.used)
    (c : CallbackOp) :
    addr ∈ (s.callbackStep c).used ∧ (addr ∈ addrs (s.callbackStep c).timers ↔
      addr ∈ addrs s.timers ∧ c ≠ .removeTimer addr) := by
  cases c with
  | addTimer o other when interval repeatCount =>
    simp only [Pass.callbackStep, ne_eq, reduceCtorEq, not_false_eq_true, and_true]
    split
    · exact ⟨hused, Iff.rfl⟩
    · next hnew =>
      refine ⟨List.mem_cons_of_mem _ hused, ?_⟩
      rw [(addTimer_perm h hnew o when interval repeatCount).mem_iff, List.mem_cons]
      exact or_iff_right fun heq => hnew (heq ▸ hused)
  | cancel other off =>
    simp only [Pass.callbackStep, ne_eq, reduceCtorEq, not_false_eq_true, and_true,
      addrs_cancelTimerInLoop]
    exact hused
  | removeTimer other =>
    refine ⟨hused, ?_⟩
    rw [Pass.callbackStep, addrs_removeTimerInLoop, h.distinct.mem_erase_iff, and_comm]
    exact and_congr_right fun _ => not_congr (by simp [eq_comm])

private theorem mem_callbacks {s : Pass} (h : s.Valid) {addr : Nat} (hused : addr ∈ s.used)
    (ops : List CallbackOp) :
    (ops.foldl callbackStep s).Valid ∧ (addr ∈ addrs (ops.foldl callbackStep s).timers ↔
      addr ∈ addrs s.timers ∧ .removeTimer addr ∉ ops) := by
  induction ops generalizing s with
  | nil => simp [h]
  | cons c ops ih =>
    obtain ⟨hused', hmem⟩ := mem_callbackStep h hused c
    obtain ⟨hvalid, hrest⟩ := ih (h.callbackStep c) hused'
    refine ⟨hvalid, ?_⟩
    rw [List.foldl_cons, hrest, hmem, and_assoc, List.mem_cons, not_or]
    exact and_congr_right fun _ => and_congr_left fun _ => ne_comm

/-! ## One turn of the loop -/

/-- A callback itself uses no pointer of the pass. -/
@[simp] theorem callbackStep_fault (s : Pass) (c : CallbackOp) :
    (s.callbackStep c).fault = s.fault := by
  cases c with
  | addTimer o addr when interval repeatCount =>
    simp only [Pass.callbackStep]
    split <;> rfl
  | cancel addr off => rfl
  | removeTimer addr => rfl

private theorem foldl_callbackStep_fault (s : Pass) (ops : List CallbackOp) :
    (ops.foldl callbackStep s).fault = s.fault :=
  foldl_invariant (P := fun t : Pass => t.fault = s.fault) rfl
    (fun t c ht => (callbackStep_fault t c).trans ht) ops

private theorem runCallback_fault (callbacks : Nat → List CallbackOp) (s : Pass) (addr : Nat) :
    (s.runCallback callbacks addr).fault = s.fault :=
  foldl_callbackStep_fault _ (callbacks s.calls)

/-- A timer of the set is still there after its callback unless the callback removes it. -/
theorem runCallback_valid {s : Pass} (h : s.Valid) {addr : Nat} (hin : addr ∈ addrs s.timers)
    (callbacks : Nat → List CallbackOp) :
    (s.runCallback callbacks addr).Valid ∧ (addr ∈ addrs (s.runCallback callbacks addr).timers ↔
      .removeTimer addr ∉ callbacks s.calls) := by
  have hcalled : Valid { s with events := s.events ++ [.ran addr], calls := s.calls + 1 } := by
    refine ⟨h.distinct, h.used, fun a ha => ?_, along_concat.mpr ⟨h.ordered, fun a ha hgone => ?_⟩⟩
    · apply h.erased a
      simpa using ha
    · cases ha
      exact (h.erased addr hgone).2 hin
  have hused : addr ∈ ({ s with events := s.events ++ [.ran addr], calls := s.calls + 1 } : Pass).used :=
    h.used addr hin
  obtain ⟨hvalid, hmem⟩ := mem_callbacks hcalled hused (callbacks s.calls)
  have hsame := addrs_mapTimer Timer.afterCallback_addr addr
    ((callbacks s.calls).foldl callbackStep
      { s with events := s.events ++ [.ran addr], calls := s.calls + 1 }).timers
  constructor
  · refine ⟨?_, fun a ha => hvalid.used a (hsame ▸ ha), fun a ha => ?_, hvalid.ordered⟩
    · rw [runCallback, hsame]
      exact hvalid.distinct
    · obtain ⟨hold, hgone⟩ := hvalid.erased a ha
      exact ⟨hold, fun hmem => hgone (hsame ▸ hmem)⟩
  · rw [runCallback, hsame, hmem]
    exact and_iff_right hin

/-- The element the iterator points to is in the set. -/
def CursorIn (s : Pass) : Prop :=
  s.fault = false → ∀ addr, s.cursor = some addr → addr ∈ addrs s.timers

/-- Leaving an element faults exactly when it is not in the set any more. -/
theorem leave_spec {s : Pass} (h : s.Valid) (hfault : s.fault = false) (addr : Nat) :
    (s.leave addr).Valid ∧ (s.leave addr).CursorIn ∧
      ((s.leave addr).fault = false ↔ addr ∈ addrs s.timers) := by
  cases hfind : findTimer addr s.timers with
  | none =>
    have hgone := findTimer_eq_none.mp hfind
    simp only [leave, hfind]
    exact ⟨⟨h.distinct, h.used, h.erased, h.ordered⟩, fun hf => absurd hf (by simp), by simp [hgone]⟩
  | some e =>
    have hin : addr ∈ addrs s.timers := findTimer_isSome.mp ⟨e, hfind⟩
    simp only [leave, hfind]
    split
    · have hvalid := h.removed addr
      rw [if_pos hin] at hvalid
      refine ⟨⟨hvalid.distinct, hvalid.used, hvalid.erased, hvalid.ordered⟩, fun _ next hnext => ?_,
        iff_of_true hfault hin⟩
      dsimp only
      rw [addrs_removeTimerInLoop]
      exact nextAddr_mem hnext
    · refine ⟨⟨h.distinct, h.used, h.erased, h.ordered⟩, fun _ next hnext => ?_,
        iff_of_true hfault hin⟩
      exact List.mem_of_mem_erase (nextAddr_mem hnext)

/-- What holds of a pass before each turn. -/
structure Sound (s : Pass) : Prop where
  valid : s.Valid
  cursorIn : s.CursorIn

private theorem sound_start (set : TimerSet) (older : List Nat) : (start set older).Sound :=
  ⟨valid_start set older, fun _ _ hcursor => List.mem_of_mem_head? hcursor⟩

/-- A turn keeps the pass sound, and faults exactly when a callback removes its own timer. -/
theorem passStep_spec {now : Int} {callbacks : Nat → List CallbackOp} {s : Pass} (h : s.Sound) :
    (passStep now callbacks s).Sound ∧ ((passStep now callbacks s).fault = false ↔
      s.fault = false ∧ NoSelfRemoval now callbacks s) := by
  cases hfault : s.fault with
  | true =>
    have hsame : passStep now callbacks s = s := by simp only [passStep, hfault, if_true]
    rw [hsame, hfault]
    exact ⟨h, by simp⟩
  | false =>
    rw [and_iff_right rfl]
    -- a turn that calls no callback
    have hquiet : (∀ addr, ¬ s.Calls now addr) → NoSelfRemoval now callbacks s :=
      fun hno addr hcalls => absurd hcalls (hno addr)
    cases hcursor : s.cursor with
    | none =>
      have hsame : passStep now callbacks s = s := by simp [passStep, hfault, hcursor]
      rw [hsame, hfault]
      refine ⟨h, iff_of_true rfl (hquiet fun addr hcalls => ?_)⟩
      have hat := hcalls.2.1
      rw [hcursor] at hat
      cases hat
    | some addr =>
      have hin : addr ∈ addrs s.timers := h.cursorIn hfault addr hcursor
      obtain ⟨e, hfind⟩ := findTimer_isSome.mpr hin
      have honly : ∀ other, s.Calls now other →
          other = addr ∧ e.Due now ∧ e.timer.canceled = false := by
        rintro other ⟨-, hother, e', hfind', hdue, hlive⟩
        cases hcursor.symm.trans hother
        cases hfind.symm.trans hfind'
        exact ⟨rfl, hdue, hlive⟩
      by_cases hdue : e.Due now
      · cases hlive : e.timer.canceled with
        | true =>
          have hturn : passStep now callbacks s = s.leave addr := by
            simp [passStep, hfault, hcursor, hfind, hdue, hlive]
          obtain ⟨hvalid, hnext, hleft⟩ := leave_spec h.valid hfault addr
          rw [hturn]
          refine ⟨⟨hvalid, hnext⟩, iff_of_true (hleft.mpr hin) (hquiet fun other hcalls => ?_)⟩
          rw [(honly other hcalls).2.2] at hlive
          cases hlive
        | false =>
          have hturn : passStep now callbacks s = (s.runCallback callbacks addr).leave addr := by
            simp [passStep, hfault, hcursor, hfind, hdue, hlive]
          obtain ⟨hran, hstill⟩ := runCallback_valid h.valid hin callbacks
          obtain ⟨hvalid, hnext, hleft⟩ := leave_spec hran
            ((runCallback_fault callbacks s addr).trans hfault) addr
          rw [hturn, hleft, hstill]
          refine ⟨⟨hvalid, hnext⟩, fun hkeeps other hcalls => ?_, fun hno => ?_⟩
          · rw [(honly other hcalls).1]
            exact hkeeps
          · exact hno addr ⟨hfault, hcursor, e, hfind, hdue, hlive⟩
      · have hturn : passStep now callbacks s = { s with cursor := none } := by
          simp [passStep, hfault, hcursor, hfind, hdue]
        rw [hturn]
        refine ⟨⟨⟨h.valid.distinct, h.valid.used, h.valid.erased, h.valid.ordered⟩,
          fun _ other hother => absurd hother (by simp)⟩,
          iff_of_true hfault (hquiet fun other hcalls => ?_)⟩
        exact hdue (honly other hcalls).2.1

end Pass

/-! ## Whole passes -/

private theorem sound_iterate {now : Int} {callbacks : Nat → List CallbackOp} {s : Pass}
    (h : s.Sound)
    (n : Nat) : ((passStep now callbacks)^[n] s).Sound := by
  induction n with
  | zero => exact h
  | succ n ih =>
    rw [Function.iterate_succ_apply']
    exact (Pass.passStep_spec ih).1

/-- Along every pass, over every set and with every behaviour of the callbacks: the iterator
always has its element and no timer runs after it left the set, exactly when no callback that
is called removes its own timer. -/
theorem reentrant_pass_safe_iff (set : TimerSet) (older : List Nat) (now : Int)
    (callbacks : Nat → List CallbackOp) :
    (∀ n, PassSafe ((passStep now callbacks)^[n] (Pass.start set older))) ↔
      ∀ n, NoSelfRemoval now callbacks ((passStep now callbacks)^[n] (Pass.start set older)) := by
  have hsound := fun n => @sound_iterate now callbacks _ (Pass.sound_start set older) n
  constructor
  · intro hsafe n
    have hnext := (hsafe (n + 1)).1
    rw [Function.iterate_succ_apply', (Pass.passStep_spec (hsound n)).2] at hnext
    exact hnext.2
  · intro hkeeps n
    refine ⟨?_, (hsound n).valid.ordered⟩
    induction n with
    | zero => rfl
    | succ n ih =>
      rw [Function.iterate_succ_apply', (Pass.passStep_spec (hsound n)).2]
      exact ⟨ih, hkeeps n⟩

/-- One timer that repeats every 10, due at 10. -/
def oneTimer : TimerSet := ⟨[⟨10, 1, 10, 10, -1, false⟩], by simp [Ordered], by decide⟩

/-- A callback that removes its own timer: the loop goes on from an erased element. -/
theorem self_removal_faults :
    (passStep 10 (fun _ => [.removeTimer 1]) (Pass.start oneTimer [])).fault = true ∧
      ¬ ∀ n, PassSafe ((passStep 10 fun _ => [.removeTimer 1])^[n] (Pass.start oneTimer [])) := by
  have hfault : (passStep 10 (fun _ => [.removeTimer 1]) (Pass.start oneTimer [])).fault = true := by
    decide
  refine ⟨hfault, fun h => ?_⟩
  have hsafe := (h 1).1
  rw [Function.iterate_one, hfault] at hsafe
  cases hsafe

/-! ## The queue between passes -/

private theorem addrs_doTimer_sublist (now : Int) (timers : TimerList) :
    (addrs (timers.doTimer now).1).Sublist (addrs timers) := by
  induction timers with
  | nil => exact List.Sublist.refl _
  | cons e rest ih =>
    by_cases hdue : e.Due now
    · rw [doTimer_cons_of_due hdue]
      dsimp only
      split
      · exact ih.cons _
      · have hcons := ih.cons_cons e.timer.addr
        simpa [addrs] using hcons
    · rw [doTimer_cons_of_not_due hdue]

/-- An operation adds no address but that of the timer it creates. -/
theorem distinct_timerStep {timers : TimerList} {op : TimerOp} (h : (addrs timers).Nodup)
    (hnew : ∀ addr ∈ op.newAddr?, addr ∉ addrs timers) :
    (addrs (timerStep timers op)).Nodup ∧
      ∀ addr ∈ addrs (timerStep timers op), addr ∈ op.newAddr? ∨ addr ∈ addrs timers := by
  have hadd : ∀ e : TimerEntry, e.timer.addr ∉ addrs timers →
      (addrs (timers.insertEntry e)).Nodup ∧
        ∀ addr ∈ addrs (timers.insertEntry e), addr = e.timer.addr ∨ addr ∈ addrs timers := by
    intro e hout
    have hperm := addrs_insertEntry hout
    refine ⟨hperm.nodup_iff.mpr (List.nodup_cons.mpr ⟨hout, h⟩), fun addr hmem => ?_⟩
    exact List.mem_cons.mp (hperm.mem_iff.mp hmem)
  cases op with
  | addTimerRef addr when interval repeatCount =>
    obtain ⟨hnodup, hmem⟩ := hadd ⟨when, addr, when, interval, -1, false⟩ (hnew addr rfl)
    exact ⟨hnodup, fun a ha => (hmem a ha).imp_left fun heq => congrArg some heq.symm⟩
  | addTimerMove addr when interval repeatCount =>
    obtain ⟨hnodup, hmem⟩ := hadd ⟨when, addr, when, interval, repeatCount, false⟩ (hnew addr rfl)
    exact ⟨hnodup, fun a ha => (hmem a ha).imp_left fun heq => congrArg some heq.symm⟩
  | cancel addr off =>
    rw [timerStep, addrs_cancelTimerInLoop]
    exact ⟨h, fun a ha => Or.inr ha⟩
  | removeTimer addr =>
    rw [timerStep, addrs_removeTimerInLoop]
    exact ⟨h.erase addr, fun a ha => Or.inr (List.mem_of_mem_erase ha)⟩
  | doTimer now =>
    have hsub := addrs_doTimer_sublist now timers
    exact ⟨hsub.nodup h, fun a ha => Or.inr (hsub.subset ha)⟩

/-- A queue that is only ever given new timers is a set in which each timer is once. -/
theorem timerSet_of_run (ops : List TimerOp) (hnew : (ops.filterMap TimerOp.newAddr?).Nodup) :
    ∃ set : TimerSet, set.timers = ops.foldl timerStep [] := by
  have hordered : Ordered (ops.foldl timerStep []) :=
    foldl_invariant List.Pairwise.nil (fun t op ht => Ordered.timerStep ht op) ops
  have hdistinct : (addrs (ops.foldl timerStep [])).Nodup ∧
      ∀ addr ∈ addrs (ops.foldl timerStep []), addr ∈ ops.filterMap TimerOp.newAddr? := by
    clear hordered
    induction ops using List.reverseRecOn with
    | nil => exact ⟨List.Pairwise.nil, fun _ h => absurd h List.not_mem_nil⟩
    | append_singleton ops op ih =>
      rw [List.filterMap_append] at hnew
      obtain ⟨hearlier, _, hapart⟩ := List.nodup_append.mp hnew
      obtain ⟨hnodup, hmade⟩ := ih hearlier
      have hfresh : ∀ addr ∈ op.newAddr?, addr ∈ [op].filterMap TimerOp.newAddr? :=
        fun addr haddr => List.mem_filterMap.mpr ⟨op, List.mem_singleton_self _, haddr⟩
      obtain ⟨hnodup', hmem⟩ := distinct_timerStep hnodup fun addr haddr hold =>
        hapart addr (hmade addr hold) addr (hfresh addr haddr) rfl
      rw [List.foldl_append, List.foldl_cons, List.foldl_nil, List.filterMap_append]
      refine ⟨hnodup', fun addr haddr => ?_⟩
      rcases hmem addr haddr with hnow | hold
      · exact List.mem_append_right _ (hfresh addr hnow)
      · exact List.mem_append_left _ (hmade addr hold)
  exact ⟨⟨_, hordered, hdistinct.1⟩, rfl⟩

/-! ## Callbacks that leave the queue alone -/

section Quiet

variable {addr : Nat} {before rest : TimerList} {e : TimerEntry}

private theorem findTimer_middle (h : e.timer.addr ∉ addrs before) :
    findTimer e.timer.addr (before ++ e :: rest) = some e := by
  have hnone : before.find? (fun a => a.timer.addr = e.timer.addr) = none :=
    findTimer_eq_none.mpr h
  rw [findTimer, List.find?_append, hnone]
  simp

private theorem nextAddr_middle (h : e.timer.addr ∉ addrs before) :
    nextAddr e.timer.addr (before ++ e :: rest) = (addrs rest).head? := by
  induction before with
  | nil => simp [nextAddr, addrs]
  | cons a before ih =>
    have hne : a.timer.addr ≠ e.timer.addr := fun heq => h (heq ▸ List.mem_cons_self ..)
    have hlater : e.timer.addr ∉ addrs before := fun hmem => h (List.mem_cons_of_mem _ hmem)
    simp only [List.cons_append, nextAddr, if_neg hne, ih hlater]

private theorem removeTimerInLoop_middle (h : e.timer.addr ∉ addrs before) :
    TimerList.removeTimerInLoop e.timer.addr (before ++ e :: rest) = before ++ rest := by
  induction before with
  | nil => simp [TimerList.removeTimerInLoop]
  | cons a before ih =>
    have hne : a.timer.addr ≠ e.timer.addr := fun heq => h (heq ▸ List.mem_cons_self ..)
    have hlater : e.timer.addr ∉ addrs before := fun hmem => h (List.mem_cons_of_mem _ hmem)
    simp only [List.cons_append, TimerList.removeTimerInLoop, if_neg hne, ih hlater]

private theorem mapTimer_of_not_mem {f : Timer → Timer} (h : addr ∉ addrs rest) :
    mapTimer addr f rest = rest := by
  rw [mapTimer]
  conv_rhs => rw [← List.map_id rest]
  apply List.map_congr_left
  intro a ha
  have hne : a.timer.addr ≠ addr := fun heq => h (heq ▸ List.mem_map_of_mem ha)
  rw [if_neg hne]
  rfl

private theorem mapTimer_middle {f : Timer → Timer} (hbefore : e.timer.addr ∉ addrs before)
    (hrest : e.timer.addr ∉ addrs rest) :
    mapTimer e.timer.addr f (before ++ e :: rest) =
      before ++ { e with timer := f e.timer } :: rest := by
  have happend : mapTimer e.timer.addr f (before ++ e :: rest) =
      mapTimer e.timer.addr f before ++ mapTimer e.timer.addr f (e :: rest) := List.map_append ..
  have hcons : mapTimer e.timer.addr f (e :: rest) =
      { e with timer := f e.timer } :: mapTimer e.timer.addr f rest := by
    simp [mapTimer]
  rw [happend, hcons, mapTimer_of_not_mem hbefore, mapTimer_of_not_mem hrest]

private theorem Pass.leave_middle {s : Pass} (htimers : s.timers = before ++ e :: rest)
    (h : e.timer.addr ∉ addrs before) :
    s.leave e.timer.addr =
      if e.timer.repeatCount = 0 then
        { s with
          timers := before ++ rest
          events := s.events ++ [.erased e.timer.addr]
          cursor := (addrs rest).head? }
      else { s with cursor := (addrs rest).head? } := by
  simp only [Pass.leave, htimers, findTimer_middle h, nextAddr_middle h, removeTimerInLoop_middle h]

end Quiet

/-- The timers whose callback has been called, in order. -/
def Pass.ran (s : Pass) : List Nat :=
  s.events.filterMap fun
    | .ran addr => some addr
    | .erased _ => none

/-- One turn over a due element, with a callback that leaves the queue alone. -/
theorem passStep_quiet {now : Int} {s : Pass} {before rest : TimerList} {e : TimerEntry}
    (hfault : s.fault = false) (htimers : s.timers = before ++ e :: rest)
    (hcursor : s.cursor = some e.timer.addr) (hbefore : e.timer.addr ∉ addrs before)
    (hrest : e.timer.addr ∉ addrs rest) (hdue : e.Due now) :
    (passStep now (fun _ => []) s).timers =
        (if e.timer.run.1.repeatCount = 0 then before ++ rest
          else before ++ { e with timer := e.timer.run.1 } :: rest) ∧
      (passStep now (fun _ => []) s).cursor = (addrs rest).head? ∧
      (passStep now (fun _ => []) s).ran =
        s.ran ++ (if e.timer.canceled then [] else [e.timer.addr]) ∧
      (passStep now (fun _ => []) s).fault = false := by
  have hfind : findTimer e.timer.addr s.timers = some e := htimers ▸ findTimer_middle hbefore
  cases hlive : e.timer.canceled with
  | true =>
    have hrun : e.timer.run.1 = e.timer := by rw [Timer.run_eq, if_pos hlive]
    have hturn : passStep now (fun _ => []) s = s.leave e.timer.addr := by
      simp [passStep, hfault, hcursor, hfind, hdue, hlive]
    rw [hturn, Pass.leave_middle htimers hbefore, hrun]
    split <;> simp [Pass.ran, htimers, hfault]
  | false =>
    have hrun : e.timer.run.1 = e.timer.afterCallback := by
      rw [Timer.run_eq, hlive]
      rfl
    have hturn : passStep now (fun _ => []) s =
        (s.runCallback (fun _ => []) e.timer.addr).leave e.timer.addr := by
      simp [passStep, hfault, hcursor, hfind, hdue, hlive]
    have hcalled : (s.runCallback (fun _ => []) e.timer.addr).timers =
        before ++ { e with timer := e.timer.afterCallback } :: rest := by
      rw [Pass.runCallback, List.foldl_nil]
      dsimp only
      rw [htimers, mapTimer_middle hbefore hrest]
    have hsame : e.timer.afterCallback.addr = e.timer.addr := Timer.afterCallback_addr e.timer
    have hleave := Pass.leave_middle hcalled (hsame ▸ hbefore)
    dsimp only at hleave
    rw [hsame] at hleave
    rw [hturn, hleave, hrun]
    split <;> simp [Pass.ran, Pass.runCallback, htimers, mapTimer_middle hbefore hrest, hfault]

/-- A pass whose callbacks leave the queue alone ends as `doTimer` does. -/
theorem iterate_passStep_quiet {now : Int} {rest : TimerList} :
    ∀ {before : TimerList} {s : Pass}, s.fault = false → s.timers = before ++ rest →
      s.cursor = (addrs rest).head? → (addrs (before ++ rest)).Nodup →
      ((passStep now fun _ => [])^[rest.length] s).timers = before ++ (rest.doTimer now).1 ∧
        ((passStep now fun _ => [])^[rest.length] s).ran = s.ran ++ addrs (rest.doTimer now).2 ∧
        ((passStep now fun _ => [])^[rest.length] s).fault = false := by
  induction rest with
  | nil =>
    intro before s hfault htimers _ _
    exact ⟨htimers, (List.append_nil _).symm, hfault⟩
  | cons e rest ih =>
    intro before s hfault htimers hcursor hnodup
    rw [addrs, List.map_append, List.map_cons, List.nodup_append] at hnodup
    obtain ⟨hfirst, hlater, hapart⟩ := hnodup
    obtain ⟨hrest, hlater⟩ := List.nodup_cons.mp hlater
    have hbefore : e.timer.addr ∉ addrs before :=
      fun hmem => hapart _ hmem _ (List.mem_cons_self ..) rfl
    rw [List.length_cons, Function.iterate_succ_apply]
    by_cases hdue : e.Due now
    · obtain ⟨htimers', hcursor', hran', hfault'⟩ :=
        passStep_quiet hfault htimers hcursor hbefore hrest hdue
      rw [doTimer_cons_of_due hdue]
      have hran : ∀ later : List TimerEntry,
          s.ran ++ (if e.timer.canceled then [] else [e.timer.addr]) ++ addrs later =
            s.ran ++ addrs (if e.timer.canceled then later else e :: later) := by
        intro later
        rw [List.append_assoc]
        split <;> rfl
      by_cases hlast : e.timer.run.1.repeatCount = 0
      · rw [if_pos hlast] at htimers'
        have hnodup' : (addrs (before ++ rest)).Nodup := by
          rw [addrs, List.map_append, List.nodup_append]
          exact ⟨hfirst, hlater, fun a ha b hb => hapart a ha b (List.mem_cons_of_mem _ hb)⟩
        obtain ⟨hend, hcalled, hok⟩ := ih hfault' htimers' hcursor' hnodup'
        rw [hend, hcalled, hran', hran, if_pos hlast]
        exact ⟨rfl, rfl, hok⟩
      · rw [if_neg hlast, List.append_cons] at htimers'
        have hnodup' : (addrs (before ++ [{ e with timer := e.timer.run.1 }] ++ rest)).Nodup := by
          rw [← List.append_cons, addrs, List.map_append, List.map_cons, List.nodup_append]
          rw [Timer.run_addr]
          exact ⟨hfirst, List.nodup_cons.mpr ⟨hrest, hlater⟩, hapart⟩
        obtain ⟨hend, hcalled, hok⟩ := ih hfault' htimers' hcursor' hnodup'
        rw [hend, hcalled, hran', hran, if_neg hlast, ← List.append_cons]
        exact ⟨rfl, rfl, hok⟩
    · have hfind : findTimer e.timer.addr s.timers = some e := htimers ▸ findTimer_middle hbefore
      have hturn : passStep now (fun _ => []) s = { s with cursor := none } := by
        have hat : s.cursor = some e.timer.addr := hcursor
        simp [passStep, hfault, hat, hfind, hdue]
      have hfixed : passStep now (fun _ => []) { s with cursor := none } =
          { s with cursor := none } := by
        simp [passStep]
      rw [hturn, Function.iterate_fixed hfixed, doTimer_cons_of_not_due hdue]
      exact ⟨htimers, (List.append_nil _).symm, hfault⟩

/-- A pass whose callbacks leave the queue alone does what `doTimer` does. -/
theorem quiet_pass_eq_doTimer (set : TimerSet) (older : List Nat) (now : Int) :
    ((passStep now fun _ => [])^[set.timers.length] (Pass.start set older)).timers =
        (set.timers.doTimer now).1 ∧
      ((passStep now fun _ => [])^[set.timers.length] (Pass.start set older)).ran =
        addrs (set.timers.doTimer now).2 := by
  obtain ⟨htimers, hran, _⟩ := @iterate_passStep_quiet now set.timers [] (Pass.start set older)
    rfl rfl rfl set.distinct
  exact ⟨htimers, hran⟩

/-- So it does with the timers of any run that is only ever given new ones. -/
theorem quiet_pass_of_run (ops : List TimerOp) (hnew : (ops.filterMap TimerOp.newAddr?).Nodup)
    (older : List Nat) (now : Int) :
    ∃ set : TimerSet, set.timers = ops.foldl timerStep [] ∧
      ((passStep now fun _ => [])^[set.timers.length] (Pass.start set older)).timers =
        (ops ++ [TimerOp.doTimer now]).foldl timerStep [] := by
  obtain ⟨set, hset⟩ := timerSet_of_run ops hnew
  refine ⟨set, hset, (quiet_pass_eq_doTimer set older now).1.trans ?_⟩
  rw [List.foldl_append, ← hset]
  rfl

end ChatRoom.Net
