import Mathlib.Data.Int.CardIntervalMod
import ChatRoom.Core.Monitor
import ChatRoom.Core.Run

/-!
# EventLoopThread and EventLoopThreadPool

`startLoop` waits until the new thread has published its loop, and then reads the pointer
again without the mutex. The pool starts its threads one after another and deals the loops
out in turn.
-/

namespace ChatRoom.Net

open ChatRoom.Core Monitor

variable {ι : Type*}

/-! ## startLoop and threadFunc -/

/-- What `threadFunc` does to `m_loop`: the block under the mutex, and the assignment of
NULL after `loop` has returned, which takes no mutex and notifies nobody. -/
inductive LoopCall (ι : Type*) where
  | publish (loop : ι)
  | clear

/-- `m_mutex` and `m_cond` around `m_loop`: the block of `startLoop` that waits, without the
`return m_loop` behind it. -/
def EventLoopThread (ι : Type*) : Monitor (Option ι) (LoopCall ι) where
  ready loop := loop.isSome
  leave loop := loop
  apply
    | .publish loop, _ => some loop
    | .clear, _ => none
  signal
    | .publish _, _ => .all
    | .clear, _ => .none
  locked
    | .publish _ => true
    | .clear => false

section Runs

variable {T : Type*} [DecidableEq T] {s s' : State T (Option ι) (LoopCall ι)}

/-- `m_loop` is what was done to it last, and a thread has left with a loop that was published. -/
theorem startLoop_data (h : (EventLoopThread ι).Reachable (fun _ => True) none s) :
    (∀ loop, s.data = some loop ↔ s.history.getLast? = some (.publish loop)) ∧
      ∀ x ∈ s.departures, ∃ loop, x.2 = some loop ∧ .publish loop ∈ s.history := by
  refine h.invariant
    (P := fun d l ops => (∀ loop, d = some loop ↔ ops.getLast? = some (.publish loop)) ∧
      ∀ x ∈ l, ∃ loop, x.2 = some loop ∧ LoopCall.publish loop ∈ ops)
    ⟨fun loop => iff_of_false nofun nofun, fun x hx => absurd hx List.not_mem_nil⟩ ?_ ?_
  · rintro t d l ops ⟨hd, hl⟩ hready
    refine ⟨hd, fun x hx => ?_⟩
    rcases List.mem_append.mp hx with hx | hx
    · exact hl x hx
    · obtain ⟨loop, hloop⟩ := Option.isSome_iff_exists.mp hready
      rw [List.mem_singleton.mp hx]
      exact ⟨loop, hloop, List.mem_of_getLast? ((hd loop).mp hloop)⟩
  · rintro op d l ops ⟨_, hl⟩
    refine ⟨fun loop => ?_, fun x hx => ?_⟩
    · rw [List.getLast?_concat]
      cases op with
      | publish loop' =>
        change some loop' = some loop ↔ _
        rw [Option.some_inj, Option.some_inj, LoopCall.publish.injEq]
      | clear => exact iff_of_false nofun nofun
    · obtain ⟨loop, hloop, hmem⟩ := hl x hx
      exact ⟨loop, hloop, List.mem_append_left _ hmem⟩

end Runs

/-- The monitor, and what the calls of `startLoop` have returned: each value with the calls
that had been made when `m_loop` was read for it. -/
structure StartLoops (T ι : Type*) where
  monitor : State T (Option ι) (LoopCall ι)
  returns : List (T × Option ι × List (LoopCall ι))

namespace StartLoops

variable {T : Type*} [DecidableEq T]

/-- The thread has left the block under the mutex and has not returned since. -/
def Returning (s : StartLoops T ι) (t : T) : Prop :=
  s.monitor.place t = .away ∧
    (s.returns.map (·.1)).count t < (s.monitor.departures.map (·.1)).count t

/-- A step inside the monitor, or `return m_loop`, which reads the pointer once more without the
mutex. -/
inductive Step : StartLoops T ι → StartLoops T ι → Prop
  | inside {s : StartLoops T ι} {m : State T (Option ι) (LoopCall ι)} {kind : Kind}
      (h : Monitor.Step (EventLoopThread ι) (fun _ => True) kind s.monitor m)
      (hreturning : ∀ t, s.Returning t → m.place t = s.monitor.place t) :
      Step s { s with monitor := m }
  | ret {s : StartLoops T ι} {t : T} (h : s.Returning t) :
      Step s { s with returns := s.returns ++ [(t, s.monitor.data, s.monitor.history)] }

/-- The states of all runs that start before the thread has published its loop. -/
def Reachable (s : StartLoops T ι) : Prop :=
  Relation.ReflTransGen Step ⟨.start none, []⟩ s

/-- What `startLoop` may return: the loop published last, or NULL when that has been cleared. -/
structure Returned (value : Option ι) (calls : List (LoopCall ι)) : Prop where
  published : ∃ loop, .publish loop ∈ calls
  last : ∀ loop, value = some loop ↔ calls.getLast? = some (.publish loop)
  cleared : value = none ↔ calls.getLast? = some .clear

private theorem Reachable.monitor {s : StartLoops T ι} (h : s.Reachable) :
    (EventLoopThread ι).Reachable (fun _ => True) none s.monitor := by
  induction h with
  | refl => exact .refl
  | tail _ hstep ih =>
    cases hstep with
    | inside h => exact ih.tail ⟨_, h⟩
    | ret => exact ih

/-- A thread is about to return only after some loop was published. -/
theorem Returning.returned {s : StartLoops T ι} (h : s.Reachable) {t : T} (ht : s.Returning t) :
    Returned s.monitor.data s.monitor.history := by
  obtain ⟨hlast, hdepartures⟩ := startLoop_data h.monitor
  have hleft : t ∈ s.monitor.departures.map (·.1) :=
    List.count_pos_iff.mp (Nat.zero_lt_of_lt ht.2)
  obtain ⟨x, hx, -⟩ := List.mem_map.mp hleft
  obtain ⟨loop, -, hpublished⟩ := hdepartures x hx
  refine ⟨⟨loop, hpublished⟩, hlast, ?_⟩
  cases hcalls : s.monitor.history.getLast? with
  | none =>
    rw [List.getLast?_eq_none_iff.mp hcalls] at hpublished
    cases hpublished
  | some op =>
    cases op with
    | publish loop' =>
      rw [(hlast loop').mpr hcalls]
      exact iff_of_false nofun nofun
    | clear =>
      refine iff_of_true ?_ rfl
      rw [Option.eq_none_iff_forall_ne_some]
      intro loop' hdata
      rw [(hlast loop').mp hdata] at hcalls
      cases hcalls

end StartLoops

/-! ## The pool -/

/-- The pool, with the loops that its threads have published. -/
structure EventLoopThreadPool (ι : Type*) where
  baseLoop : Option ι
  started : Bool
  numThreads : Int
  next : Nat
  loops : List ι
  deriving DecidableEq, Repr

namespace EventLoopThreadPool

/-- The constructor and `init`. -/
def init (baseLoop : ι) (numThreads : Int) : EventLoopThreadPool ι :=
  ⟨some baseLoop, false, numThreads, 0, []⟩

/-- `startLoop i` is what the `i`th `EventLoopThread` returns. -/
def start (pool : EventLoopThreadPool ι) (startLoop : Nat → ι) : EventLoopThreadPool ι :=
  if pool.baseLoop.isNone then pool
  else if pool.started then pool
  else
    { pool with
      started := true
      loops := pool.loops ++ (List.range pool.numThreads.toNat).map startLoop }

/-- `getNextLoop`; null before `start`. -/
def getNextLoop (pool : EventLoopThreadPool ι) : EventLoopThreadPool ι × Option ι :=
  if pool.started then
    if pool.loops.isEmpty then (pool, pool.baseLoop)
    else
      ({ pool with next := if pool.loops.length ≤ pool.next + 1 then 0 else pool.next + 1 },
        pool.loops[pool.next]?)
  else (pool, none)

/-- `getLoopForHash`. -/
def getLoopForHash (pool : EventLoopThreadPool ι) (hashCode : Nat) : Option ι :=
  if pool.loops.isEmpty then pool.baseLoop
  else pool.loops[hashCode % pool.loops.length]?

/-- `getAllLoops`. -/
def getAllLoops (pool : EventLoopThreadPool ι) : List (Option ι) :=
  if pool.loops.isEmpty then [pool.baseLoop] else pool.loops.map some

end EventLoopThreadPool

/-- A call on the pool. -/
inductive PoolCall where
  | start
  | getNextLoop
  | getLoopForHash (hashCode : Nat)
  | getAllLoops

/-- The pool and the loops that `getNextLoop` has dealt out. -/
def poolStep (startLoop : Nat → ι) (s : EventLoopThreadPool ι × List (Option ι)) :
    PoolCall → EventLoopThreadPool ι × List (Option ι)
  | .start => (s.1.start startLoop, s.2)
  | .getNextLoop => (s.1.getNextLoop.1, s.2 ++ [s.1.getNextLoop.2])
  | .getLoopForHash _ => s
  | .getAllLoops => s

/-- The loop that the `k`th connection is to run on. -/
def loopInTurn (startLoop : Nat → ι) (baseLoop : ι) (n k : Nat) : Option ι :=
  if n = 0 then some baseLoop else some (startLoop (k % n))

section Pool

variable {startLoop : Nat → ι} {baseLoop : ι} {numThreads : Int}
  {s : EventLoopThreadPool ι × List (Option ι)}

/-- A started pool that has dealt out `k` loops in turn. -/
structure InTurn (startLoop : Nat → ι) (baseLoop : ι) (n : Nat)
    (s : EventLoopThreadPool ι × List (Option ι)) : Prop where
  started : s.1.started = true
  base : s.1.baseLoop = some baseLoop
  loops : s.1.loops = (List.range n).map startLoop
  next : s.1.next = if n = 0 then 0 else s.2.length % n
  given : s.2 = (List.range s.2.length).map (loopInTurn startLoop baseLoop n)

private theorem mod_next {n k : Nat} (hn : 0 < n) :
    (if n ≤ k % n + 1 then 0 else k % n + 1) = (k + 1) % n := by
  have hlt := Nat.mod_lt k hn
  have hk := Nat.div_add_mod k n
  split
  · have hround : k + 1 = n * (k / n + 1) := by
      rw [Nat.mul_succ]
      omega
    rw [hround, Nat.mul_mod_right]
  · next hnot =>
    have hround : k + 1 = k % n + 1 + n * (k / n) := by omega
    have hsmall : (k % n + 1) % n = k % n + 1 := Nat.mod_eq_of_lt (Nat.lt_of_not_le hnot)
    rw [hround, Nat.add_mul_mod_self_left, hsmall]

private theorem inTurn_start (startLoop : Nat → ι) (baseLoop : ι) (numThreads : Int) :
    InTurn startLoop baseLoop numThreads.toNat
      ((EventLoopThreadPool.init baseLoop numThreads).start startLoop, []) where
  started := rfl
  base := rfl
  loops := rfl
  next := by
    split
    · rfl
    · exact (Nat.zero_mod _).symm
  given := rfl

private theorem InTurn.getNextLoop {n : Nat} (h : InTurn startLoop baseLoop n s) :
    InTurn startLoop baseLoop n (poolStep startLoop s .getNextLoop) := by
  obtain ⟨pool, given⟩ := s
  obtain ⟨hstarted, hbase, hloops, hnext, hgiven⟩ := h
  dsimp only at hstarted hbase hloops hnext hgiven
  have hlength : pool.loops.length = n := by rw [hloops, List.length_map, List.length_range]
  have hmore : ∀ l : Option ι, l = loopInTurn startLoop baseLoop n given.length →
      given ++ [l] = (List.range (given ++ [l]).length).map (loopInTurn startLoop baseLoop n) := by
    intro l hl
    rw [List.length_append, List.length_singleton, List.range_succ, List.map_append, ← hgiven, hl]
    rfl
  by_cases hn : n = 0
  · have hempty : pool.loops.isEmpty = true := by
      rw [List.isEmpty_iff_length_eq_zero, hlength, hn]
    have hcall : pool.getNextLoop = (pool, pool.baseLoop) := by
      simp only [EventLoopThreadPool.getNextLoop, hstarted, hempty, if_true]
    have hstep : poolStep startLoop (pool, given) .getNextLoop =
        (pool, given ++ [pool.baseLoop]) := by
      simp only [poolStep, hcall]
    rw [hstep]
    refine ⟨hstarted, hbase, hloops, ?_, hmore _ ?_⟩
    · rw [if_pos hn]
      rw [if_pos hn] at hnext
      exact hnext
    · rw [loopInTurn, if_pos hn, hbase]
  · have hpos : 0 < n := Nat.pos_of_ne_zero hn
    have hfull : pool.loops.isEmpty = false := by
      rw [Bool.eq_false_iff, ne_eq, List.isEmpty_iff_length_eq_zero, hlength]
      exact hn
    rw [if_neg hn] at hnext
    have hcall : pool.getNextLoop =
        ({ pool with next := if n ≤ pool.next + 1 then 0 else pool.next + 1 },
          pool.loops[pool.next]?) := by
      simp only [EventLoopThreadPool.getNextLoop, hstarted, hfull, if_true, Bool.false_eq_true,
        if_false, hlength]
    have hstep : poolStep startLoop (pool, given) .getNextLoop =
        ({ pool with next := if n ≤ pool.next + 1 then 0 else pool.next + 1 },
          given ++ [pool.loops[pool.next]?]) := by
      simp only [poolStep, hcall]
    rw [hstep]
    refine ⟨hstarted, hbase, hloops, ?_, hmore _ ?_⟩
    · rw [if_neg hn]
      dsimp only
      rw [hnext, mod_next hpos, List.length_append, List.length_singleton]
    · rw [loopInTurn, if_neg hn, hloops, hnext, List.getElem?_map,
        List.getElem?_range (Nat.mod_lt _ hpos)]
      rfl

/-- Starting again changes nothing, and neither do the calls that only look. -/
theorem InTurn.step {n : Nat} (h : InTurn startLoop baseLoop n s) (call : PoolCall) :
    InTurn startLoop baseLoop n (poolStep startLoop s call) := by
  cases call with
  | start =>
    have hsame : s.1.start startLoop = s.1 := by
      simp only [EventLoopThreadPool.start, h.started, if_true, ite_self]
    have hstep : poolStep startLoop s .start = s := by
      simp only [poolStep, hsame]
    rw [hstep]
    exact h
  | getNextLoop => exact h.getNextLoop
  | getLoopForHash _ => exact h
  | getAllLoops => exact h

end Pool

/-- A hash code finds the loop of the turn with its number. -/
theorem InTurn.getLoopForHash {ι : Type*} {startLoop : Nat → ι} {baseLoop : ι} {n : Nat}
    {s : EventLoopThreadPool ι × List (Option ι)} (h : InTurn startLoop baseLoop n s)
    (hashCode : Nat) :
    s.1.getLoopForHash hashCode = loopInTurn startLoop baseLoop n hashCode := by
  rw [EventLoopThreadPool.getLoopForHash, h.loops, h.base, List.length_map, List.length_range,
    loopInTurn, List.isEmpty_map]
  cases n with
  | zero => rfl
  | succ n =>
    rw [List.getElem?_map, List.getElem?_range (Nat.mod_lt _ n.succ_pos), if_neg n.succ_ne_zero,
      List.range_succ_eq_map]
    rfl

/-- How many of the first `k` turns of `n` are the `i`th. -/
theorem count_turns {n i : Nat} (hi : i < n) (k : Nat) :
    ((List.range k).map (· % n)).count i = k / n + if i < k % n then 1 else 0 := by
  have hpos : 0 < n := Nat.zero_lt_of_lt hi
  have hcount : ((List.range k).map (· % n)).count i = k.count (· ≡ i [MOD n]) := by
    rw [List.count_eq_countP, List.countP_map, Nat.count]
    refine congrArg (fun p => List.countP p (List.range k)) (funext fun j => ?_)
    have hi' := Nat.mod_eq_of_lt hi
    simp only [Function.comp_apply, Nat.ModEq, hi', beq_eq_decide]
  rw [hcount, Nat.count_modEq_card k hpos, Nat.mod_eq_of_lt hi]

/-- Whatever else is asked of a started pool, its loops are dealt out in turn, or the base
loop alone when there are no threads; so of the first `k` connections each loop has
`k / n`, and the first `k % n` of the loops one more. A hash code finds a loop by its turn. -/
theorem getNextLoop_in_turn (startLoop : Nat → ι) (baseLoop : ι) (numThreads : Int)
    (calls : List PoolCall) [DecidableEq ι] (hdistinct : startLoop.Injective) :
    let s := calls.foldl (poolStep startLoop)
      ((EventLoopThreadPool.init baseLoop numThreads).start startLoop, [])
    s.2 = (List.range s.2.length).map (loopInTurn startLoop baseLoop numThreads.toNat) ∧
      (∀ i < numThreads.toNat, s.2.count (some (startLoop i)) =
        s.2.length / numThreads.toNat + if i < s.2.length % numThreads.toNat then 1 else 0) ∧
      ∀ hashCode, s.1.getLoopForHash hashCode =
        loopInTurn startLoop baseLoop numThreads.toNat hashCode := by
  intro s
  have hturn := foldl_invariant (P := InTurn startLoop baseLoop numThreads.toNat)
    (inTurn_start startLoop baseLoop numThreads) (fun _ call h => h.step call) calls
  refine ⟨hturn.given, fun i hi => ?_, hturn.getLoopForHash⟩
  have hinj : Function.Injective fun j => some (startLoop j) :=
    (Option.some_injective ι).comp hdistinct
  have hmap : s.2 = ((List.range s.2.length).map (· % numThreads.toNat)).map
      fun j => some (startLoop j) := by
    rw [List.map_map]
    refine hturn.given.trans ?_
    refine List.map_congr_left fun k _ => ?_
    rw [loopInTurn, if_neg (by omega)]
    rfl
  rw [hmap, List.count_map_of_injective _ _ hinj, List.length_map, List.length_map,
    List.length_range]
  exact count_turns hi _

/-- A pool of four threads. -/
theorem getNextLoop_in_turn_four : ((List.replicate 6 PoolCall.getNextLoop).foldl
    (poolStep (fun i : Nat => i + 1)) ((EventLoopThreadPool.init 0 4).start (· + 1), [])).2.count
      (some 2) = 2 :=
  (getNextLoop_in_turn (· + 1) 0 4 _ (add_left_injective 1)).2.1 1 (by decide)

end ChatRoom.Net
