import Mathlib.Algebra.BigOperators.Group.Finset.Basic
import Mathlib.Algebra.Order.BigOperators.Group.Finset
import Mathlib.Data.Fintype.BigOperators
import Mathlib.Logic.Relation

/-!
# Monitors

Data behind a mutex with one condition variable. A thread waits in a loop until the data is
ready; a call changes the data and notifies. Testing, going to sleep, changing and notifying
are separate steps, a sleeper may wake for no reason, and a call may work without the mutex,
so that an interleaving is as fine as that of the code. What a monitor has to do that no
thread sleeps through the moment it waits for is `Wakes`, and `LockedFor`.
-/

namespace ChatRoom.Core

variable {T δ ω : Type*}

/-- Whom a call notifies. -/
inductive Monitor.Signal where
  | none
  | one
  | all
  deriving DecidableEq, Repr

/-- The program of a monitor: when the waiting loop is left and what is done then, and what
each call does. -/
structure Monitor (δ ω : Type*) where
  ready : δ → Bool
  leave : δ → δ
  apply : ω → δ → δ
  /-- Whom a call notifies, by the data it leaves. -/
  signal : ω → δ → Monitor.Signal
  locked : ω → Bool

namespace Monitor

/-- Where a thread stands. -/
inductive Place (ω : Type*) where
  | away
  /-- About to lock the mutex for the waiting loop. -/
  | entering
  | testing
  /-- The test has failed and the mutex is still held. -/
  | refused
  | asleep
  | leaving
  | calling (op : ω)
  | changing (op : ω)
  | notifying (op : ω) (signal : Signal)
  | unlocking

/-- The threads at this place hold the mutex. -/
def Place.Holds (M : Monitor δ ω) : Place ω → Prop
  | .testing | .refused | .leaving | .unlocking => True
  | .changing op | .notifying op _ => M.locked op = true
  | .away | .entering | .asleep | .calling _ => False

/-- The places of all threads, the owner of the mutex and the data that it guards. -/
structure State (T δ ω : Type*) where
  place : T → Place ω
  owner : Option T
  data : δ
  /-- The threads that have left the waiting loop, with the data of their last test. -/
  departures : List (T × δ)
  /-- The calls that have changed the data. -/
  history : List ω

namespace State

/-- No thread is inside, and the mutex is free. -/
def start (d : δ) : State T δ ω := ⟨fun _ => .away, none, d, [], []⟩

variable [DecidableEq T]

/-- The thread goes to a place. -/
def move (s : State T δ ω) (t : T) (p : Place ω) : State T δ ω :=
  { s with place := Function.update s.place t p }

/-- The sleepers of `woken` go back to the mutex. -/
def wake (s : State T δ ω) (woken : Finset T) : State T δ ω :=
  { s with place := fun t => if t ∈ woken then .entering else s.place t }

/-- Waking nobody changes nothing. -/
@[simp] theorem wake_empty (s : State T δ ω) : s.wake ∅ = s := by
  simp only [wake, Finset.notMem_empty, if_false]

/-- The thread is where it has gone. -/
@[simp] theorem move_place_self (s : State T δ ω) (t : T) (p : Place ω) :
    (s.move t p).place t = p := Function.update_self ..

/-- Other threads stay where they are. -/
theorem move_place_of_ne (s : State T δ ω) {t u : T} (h : u ≠ t) (p : Place ω) :
    (s.move t p).place u = s.place u := Function.update_of_ne h ..

/-- A thread that moves does not pass on the mutex. -/
@[simp] theorem move_owner (s : State T δ ω) (t : T) (p : Place ω) :
    (s.move t p).owner = s.owner := rfl

/-- A thread that moves does not touch the data. -/
@[simp] theorem move_data (s : State T δ ω) (t : T) (p : Place ω) :
    (s.move t p).data = s.data := rfl

/-- A thread that moves has not left by that. -/
@[simp] theorem move_departures (s : State T δ ω) (t : T) (p : Place ω) :
    (s.move t p).departures = s.departures := rfl

/-- A thread that moves has made no call by that. -/
@[simp] theorem move_history (s : State T δ ω) (t : T) (p : Place ω) :
    (s.move t p).history = s.history := rfl

end State

/-- The threads that a notification wakes. -/
def Signal.Wakes (signal : Signal) (place : T → Place ω) (woken : Finset T) : Prop :=
  (∀ t ∈ woken, place t = .asleep) ∧
    match signal with
    | .none => woken = ∅
    | .one => (∀ t, place t ≠ .asleep) ∨ ∃ t, woken = {t}
    | .all => ∀ t, place t = .asleep → t ∈ woken

/-- New calls, steps inside of them, and waking for no reason. -/
inductive Kind where
  | arrival
  | progress
  | spurious

variable [DecidableEq T]

/-- One step of one thread. Only the threads of `Waits` enter the waiting loop. -/
inductive Step (M : Monitor δ ω) (Waits : T → Prop) :
    Kind → State T δ ω → State T δ ω → Prop
  | wait {s : State T δ ω} {t : T} (h : s.place t = .away) (hwaits : Waits t) :
      Step M Waits .arrival s (s.move t .entering)
  | call {s : State T δ ω} {t : T} (op : ω) (h : s.place t = .away) :
      Step M Waits .arrival s (s.move t (.calling op))
  | lockWait {s : State T δ ω} {t : T} (h : s.place t = .entering) (hfree : s.owner = none) :
      Step M Waits .progress s { s.move t .testing with owner := some t }
  | pass {s : State T δ ω} {t : T} (h : s.place t = .testing) (hready : M.ready s.data = true) :
      Step M Waits .progress s { s.move t .leaving with
        data := M.leave s.data, departures := s.departures ++ [(t, s.data)] }
  | refuse {s : State T δ ω} {t : T} (h : s.place t = .testing)
      (hready : M.ready s.data = false) : Step M Waits .progress s (s.move t .refused)
  | sleep {s : State T δ ω} {t : T} (h : s.place t = .refused) :
      Step M Waits .progress s { s.move t .asleep with owner := none }
  | unlockWait {s : State T δ ω} {t : T} (h : s.place t = .leaving) :
      Step M Waits .progress s { s.move t .away with owner := none }
  | lockCall {s : State T δ ω} {t : T} {op : ω} (h : s.place t = .calling op)
      (hlocked : M.locked op = true) (hfree : s.owner = none) :
      Step M Waits .progress s { s.move t (.changing op) with owner := some t }
  | change {s : State T δ ω} {t : T} {op : ω}
      (h : s.place t = .changing op ∨ (s.place t = .calling op ∧ M.locked op = false)) :
      Step M Waits .progress s
        { s.move t (.notifying op (M.signal op (M.apply op s.data))) with
          data := M.apply op s.data, history := s.history ++ [op] }
  | notify {s : State T δ ω} {t : T} {op : ω} {signal : Signal} {woken : Finset T}
      (h : s.place t = .notifying op signal) (hwoken : Signal.Wakes signal s.place woken) :
      Step M Waits .progress s
        ((s.wake woken).move t (if M.locked op then .unlocking else .away))
  | unlockCall {s : State T δ ω} {t : T} (h : s.place t = .unlocking) :
      Step M Waits .progress s { s.move t .away with owner := none }
  | spurious {s : State T δ ω} {t : T} (h : s.place t = .asleep) :
      Step M Waits .spurious s (s.move t .entering)

/-- The states of all runs that start with the data `d` and no thread inside. -/
def Reachable (M : Monitor δ ω) (Waits : T → Prop) (d : δ) (s : State T δ ω) : Prop :=
  Relation.ReflTransGen (fun s s' => ∃ kind, Step M Waits kind s s') (.start d) s

/-- No thread inside can go on. -/
def AtRest (M : Monitor δ ω) (Waits : T → Prop) (s : State T δ ω) : Prop :=
  ∀ s', ¬ Step M Waits .progress s s'

/-! ## One holder -/

/-- The mutex is held by the thread that the code says holds it. -/
def Exclusive (M : Monitor δ ω) (s : State T δ ω) : Prop :=
  ∀ t, s.owner = some t ↔ (s.place t).Holds M

section Exclusive

variable {M : Monitor δ ω} {s s' : State T δ ω} {t : T} {p : Place ω}

omit [DecidableEq T] in
private theorem exclusive_start (M : Monitor δ ω) (d : δ) :
    Exclusive M (State.start d : State T δ ω) :=
  fun _ => iff_of_false nofun id

omit [DecidableEq T] in
/-- Two threads that hold the mutex are one. -/
theorem Exclusive.unique (hex : Exclusive M s) {u : T} (ht : (s.place t).Holds M)
    (hu : (s.place u).Holds M) : t = u :=
  Option.some.inj (((hex t).mpr ht).symm.trans ((hex u).mpr hu))

omit [DecidableEq T] in
private theorem holds_of_eq (h : s.place t = p) (hp : p.Holds M) : (s.place t).Holds M := by
  rw [h]
  exact hp

omit [DecidableEq T] in
private theorem not_mem_woken {signal : Signal} {woken : Finset T}
    (hwoken : signal.Wakes s.place woken)
    (h : s.place t = p) (hp : p ≠ .asleep) : t ∉ woken :=
  fun hmem => hp (h.symm.trans (hwoken.1 t hmem))

private theorem wake_place_of_not_mem {woken : Finset T} (h : t ∉ woken) :
    (s.wake woken).place t = s.place t := if_neg h

/-- A step between two places that agree on the mutex. -/
theorem Exclusive.move (hex : Exclusive M s) (h : p.Holds M ↔ (s.place t).Holds M) :
    Exclusive M (s.move t p) := by
  intro u
  rw [State.move_owner, hex u]
  by_cases hu : u = t
  · rw [hu, State.move_place_self]
    exact h.symm
  · rw [State.move_place_of_ne s hu]

private theorem Exclusive.acquire (hex : Exclusive M s) (hfree : s.owner = none) (hp : p.Holds M) :
    Exclusive M { s.move t p with owner := some t } := by
  intro u
  change some t = some u ↔ ((s.move t p).place u).Holds M
  by_cases hu : u = t
  · rw [hu, State.move_place_self]
    exact iff_of_true rfl hp
  · rw [State.move_place_of_ne s hu, ← hex u, hfree]
    exact iff_of_false (fun h => hu (Option.some.inj h).symm) nofun

private theorem Exclusive.release (hex : Exclusive M s) (ht : (s.place t).Holds M)
    (hp : ¬ p.Holds M) : Exclusive M { s.move t p with owner := none } := by
  intro u
  change none = some u ↔ ((s.move t p).place u).Holds M
  refine iff_of_false nofun ?_
  by_cases hu : u = t
  · rw [hu, State.move_place_self]
    exact hp
  · rw [State.move_place_of_ne s hu, ← hex u, (hex t).mpr ht]
    exact fun h => hu (Option.some.inj h).symm

private theorem Exclusive.wake (hex : Exclusive M s) {woken : Finset T}
    (h : ∀ u ∈ woken, s.place u = .asleep) : Exclusive M (s.wake woken) := by
  intro u
  change s.owner = some u ↔ (if u ∈ woken then Place.entering else s.place u).Holds M
  rw [hex u]
  split
  · next hu => rw [h u hu]; rfl
  · rfl

private theorem Exclusive.step {Waits : T → Prop} {kind : Kind} (hex : Exclusive M s)
    (h : Step M Waits kind s s') : Exclusive M s' := by
  cases h with
  | wait h => exact hex.move (by rw [h]; rfl)
  | call op h => exact hex.move (by rw [h]; rfl)
  | lockWait h hfree => exact hex.acquire hfree trivial
  | @pass _ t h => exact @Exclusive.move _ _ _ _ M s t .leaving hex (by rw [h]; rfl)
  | refuse h => exact hex.move (by rw [h]; rfl)
  | sleep h => exact hex.release (holds_of_eq h trivial) id
  | unlockWait h => exact hex.release (holds_of_eq h trivial) id
  | lockCall h hlocked hfree => exact hex.acquire hfree hlocked
  | @change _ t op h =>
    refine @Exclusive.move _ _ _ _ M s t (.notifying op _) hex ?_
    rcases h with h | ⟨h, hlocked⟩
    · rw [h]
      rfl
    · rw [h]
      exact iff_of_false (fun hop => Bool.false_ne_true (hlocked.symm.trans hop)) id
  | @notify _ t op signal woken h hwoken =>
    refine (hex.wake hwoken.1).move ?_
    rw [wake_place_of_not_mem (not_mem_woken hwoken h nofun), h]
    change _ ↔ M.locked op = true
    cases M.locked op with
    | true => exact iff_of_true trivial rfl
    | false => exact iff_of_false id nofun
  | unlockCall h => exact hex.release (holds_of_eq h trivial) id
  | spurious h => exact hex.move (by rw [h]; rfl)

end Exclusive

/-! ## No lost wakeup -/

/-- A notification that reaches every sleeper. -/
def Signal.Enough (Waits : T → Prop) (signal : Signal) : Prop :=
  signal = .all ∨ (signal = .one ∧ ∀ t u, Waits t → Waits u → t = u)

/-- A condition for which a monitor wakes its threads: whatever makes it true is a call that
notifies every sleeper. -/
structure Wakes (M : Monitor δ ω) (Waits : T → Prop) (P : δ → Bool) : Prop where
  ready : ∀ d, P d = true → M.ready d = true
  leave : ∀ d, M.ready d = true → P (M.leave d) = true → P d = true
  signal : ∀ op d, P d = false → P (M.apply op d) = true →
    Signal.Enough Waits (M.signal op (M.apply op d))

/-- The condition does not become true while a thread stands between its test and its sleep. -/
def Punctual (P : δ → Bool) (s s' : State T δ ω) : Prop :=
  P s.data = false → P s'.data = true → ∀ t, s.place t ≠ .refused

/-- A notification is under way that will reach every sleeper. -/
def Announced (Waits : T → Prop) (s : State T δ ω) : Prop :=
  ∃ u op signal, s.place u = .notifying op signal ∧ Signal.Enough Waits signal

/-- The thread is somewhere in the waiting loop. -/
def Place.Waiting : Place ω → Prop
  | .entering | .testing | .refused | .asleep | .leaving => True
  | .away | .calling _ | .changing _ | .notifying _ _ | .unlocking => False

/-- No thread sleeps over `P` without a notification on its way. -/
structure Attentive (M : Monitor δ ω) (Waits : T → Prop) (P : δ → Bool) (s : State T δ ω) :
    Prop where
  exclusive : Exclusive M s
  waits : ∀ t, (s.place t).Waiting → Waits t
  refused : ∀ t, s.place t = .refused → P s.data = false
  asleep : ∀ t, s.place t = .asleep → P s.data = true → Announced Waits s

section Attentive

variable {M : Monitor δ ω} {Waits : T → Prop} {P : δ → Bool} {s s' : State T δ ω} {t u : T}
  {p : Place ω}

omit [DecidableEq T] in
private theorem attentive_start (M : Monitor δ ω) (Waits : T → Prop) (P : δ → Bool) (d : δ) :
    Attentive M Waits P (State.start d : State T δ ω) :=
  ⟨exclusive_start M d, fun _ h => h.elim, nofun, nofun⟩

private theorem waits_move (hwaits : ∀ u, (s.place u).Waiting → Waits u)
    (hp : p.Waiting → Waits t) :
    ∀ u, ((s.move t p).place u).Waiting → Waits u := by
  intro u hu
  by_cases heq : u = t
  · rw [heq, State.move_place_self] at hu
    rw [heq]
    exact hp hu
  · rw [State.move_place_of_ne s heq] at hu
    exact hwaits u hu

/-- A thread that has not moved to `q` stood there before. -/
theorem place_of_move {q : Place ω} (h : (s.move t p).place u = q) (hq : p ≠ q) :
    u ≠ t ∧ s.place u = q := by
  by_cases hu : u = t
  · rw [hu, State.move_place_self] at h
    exact absurd h hq
  · rw [State.move_place_of_ne s hu] at h
    exact ⟨hu, h⟩

/-- A notification stays under way when another thread moves. -/
theorem Announced.move (h : Announced Waits s) (ht : ∀ op signal, s.place t ≠ .notifying op signal) :
    Announced Waits (s.move t p) := by
  obtain ⟨u, op, signal, hu, henough⟩ := h
  have hne : u ≠ t := by
    rintro rfl
    exact ht op signal hu
  exact ⟨u, op, signal, by rw [State.move_place_of_ne s hne, hu], henough⟩

/-- A step that changes neither data nor notifications, and sends no thread to sleep. -/
theorem Attentive.move (hatt : Attentive M Waits P s) {owner : Option T}
    (hex : Exclusive M { s.move t p with owner := owner })
    (hp : p.Waiting → Waits t) (hrefused : p = .refused → P s.data = false)
    (hasleep : p = .asleep → P s.data = false)
    (ht : ∀ op signal, s.place t ≠ .notifying op signal) :
    Attentive M Waits P { s.move t p with owner := owner } where
  exclusive := hex
  waits := waits_move hatt.waits hp
  refused u hu := by
    by_cases h : p = .refused
    · exact hrefused h
    · exact hatt.refused u (place_of_move hu h).2
  asleep u hu hready := by
    by_cases h : p = .asleep
    · exact absurd hready (ne_true_of_eq_false (hasleep h))
    · exact (hatt.asleep u (place_of_move hu h).2 hready).move ht

/-- Leaving the loop may change the data, but what is true of it then was true before. -/
theorem Attentive.pass (hatt : Attentive M Waits P s) (hM : M.Wakes Waits P)
    (h : s.place t = .testing) (hready : M.ready s.data = true) (departures : List (T × δ))
    {s' : State T δ ω} (hs' : s' = { s.move t .leaving with
      data := M.leave s.data, departures := departures })
    (hex : Exclusive M s') : Attentive M Waits P s' := by
  subst hs'
  refine ⟨hex, waits_move hatt.waits fun _ => hatt.waits t (by rw [h]; trivial), fun u hu => ?_,
    fun u hu hdata => ?_⟩
  · obtain ⟨hne, hu⟩ := place_of_move hu nofun
    exact absurd (hatt.exclusive.unique (holds_of_eq hu trivial) (holds_of_eq h trivial)) hne
  · exact (hatt.asleep u (place_of_move hu nofun).2 (hM.leave _ hready hdata)).move
      fun _ _ => by rw [h]; nofun

/-- A call that makes `P` true finds no thread between its test and its sleep, and announces
what it has done. -/
theorem Attentive.change (hatt : Attentive M Waits P s) (hM : M.Wakes Waits P) {op : ω}
    (h : s.place t = .changing op ∨ (s.place t = .calling op ∧ M.locked op = false))
    (history : List ω) {s' : State T δ ω}
    (hs' : s' = { s.move t (.notifying op (M.signal op (M.apply op s.data))) with
      data := M.apply op s.data, history := history })
    (hpunctual : Punctual P s s') (hex : Exclusive M s') : Attentive M Waits P s' := by
  subst hs'
  have hquiet : ∀ op' signal, s.place t ≠ .notifying op' signal := by
    rcases h with h | h
    · simp only [h, ne_eq, reduceCtorEq, not_false_eq_true, implies_true]
    · simp only [h.1, ne_eq, reduceCtorEq, not_false_eq_true, implies_true]
  refine ⟨hex, waits_move hatt.waits False.elim, fun u hu => ?_, fun u hu hafter => ?_⟩
  · obtain ⟨_, hu⟩ := place_of_move hu nofun
    have hbefore := hatt.refused u hu
    refine Bool.eq_false_iff.mpr fun hafter => ?_
    exact hpunctual hbefore hafter u hu
  · cases hbefore : P s.data with
    | true => exact (hatt.asleep u (place_of_move hu nofun).2 hbefore).move hquiet
    | false => exact ⟨t, op, _, State.move_place_self .., hM.signal op s.data hbefore hafter⟩

omit [DecidableEq T] in
/-- A notification that was enough leaves no sleeper. -/
theorem not_asleep_of_enough (hwaits : ∀ u, (s.place u).Waiting → Waits u) {signal : Signal}
    {woken : Finset T} (hwoken : signal.Wakes s.place woken) (henough : signal.Enough Waits)
    (hu : s.place u = .asleep) : u ∈ woken := by
  have hasleep : ∀ v, s.place v = .asleep → Waits v := fun v hv => hwaits v (by rw [hv]; trivial)
  rcases henough with rfl | ⟨rfl, honly⟩
  · exact hwoken.2 u hu
  · rcases hwoken.2 with hnone | ⟨v, rfl⟩
    · exact absurd hu (hnone u)
    · have hv := hwoken.1 v (Finset.mem_singleton_self v)
      rw [honly u v (hasleep u hu) (hasleep v hv)]
      exact Finset.mem_singleton_self v

private theorem asleep_of_wake {woken : Finset T} (h : (s.wake woken).place u = .asleep) :
    u ∉ woken ∧ s.place u = .asleep := by
  change (if u ∈ woken then Place.entering else s.place u) = .asleep at h
  split at h
  · cases h
  · next hu => exact ⟨hu, h⟩

/-- A notification wakes those who have to know, or there is nobody to wake. -/
theorem Attentive.notify (hatt : Attentive M Waits P s) {op : ω} {signal : Signal}
    {woken : Finset T} (h : s.place t = .notifying op signal)
    (hwoken : signal.Wakes s.place woken) {p : Place ω} (hp : p = .unlocking ∨ p = .away)
    (hex : Exclusive M ((s.wake woken).move t p)) :
    Attentive M Waits P ((s.wake woken).move t p) := by
  have hwaiting : ¬ p.Waiting := by rcases hp with rfl | rfl <;> exact id
  have hrefused : p ≠ .refused := by rcases hp with rfl | rfl <;> exact nofun
  have hasleep : p ≠ .asleep := by rcases hp with rfl | rfl <;> exact nofun
  refine ⟨hex, waits_move ?_ fun h => absurd h hwaiting, fun u hu => ?_, fun u hu hready => ?_⟩
  · intro u hu
    change (if u ∈ woken then Place.entering else s.place u).Waiting at hu
    split at hu
    · next hmem => exact hatt.waits u (by rw [hwoken.1 u hmem]; trivial)
    · exact hatt.waits u hu
  · obtain ⟨_, hu⟩ := place_of_move hu hrefused
    change (if u ∈ woken then Place.entering else s.place u) = .refused at hu
    split at hu
    · cases hu
    · exact hatt.refused u hu
  · obtain ⟨hmem, hbefore⟩ := asleep_of_wake (place_of_move hu hasleep).2
    obtain ⟨v, op', signal', hv, henough⟩ := hatt.asleep u hbefore hready
    -- The thread that has just notified was not the one that was to wake `u`.
    have hne : v ≠ t := by
      rintro rfl
      rw [h] at hv
      obtain ⟨rfl, rfl⟩ := Place.notifying.inj hv
      exact hmem (not_asleep_of_enough hatt.waits hwoken henough hbefore)
    refine ⟨v, op', signal', ?_, henough⟩
    rw [State.move_place_of_ne _ hne, wake_place_of_not_mem (not_mem_woken hwoken hv nofun), hv]

private theorem Attentive.step {kind : Kind} (hM : M.Wakes Waits P) (hatt : Attentive M Waits P s)
    (h : Step M Waits kind s s') (hpunctual : Punctual P s s') : Attentive M Waits P s' := by
  have hex := hatt.exclusive.step h
  have hwaits : ∀ t, (s.place t).Waiting → Waits t := hatt.waits
  cases h with
  | wait h hwaits =>
    exact hatt.move hex (fun _ => hwaits) nofun nofun fun _ _ => by rw [h]; nofun
  | call op h => exact hatt.move hex False.elim nofun nofun fun _ _ => by rw [h]; nofun
  | @lockWait _ t h =>
    exact hatt.move hex (fun _ => hwaits t (by rw [h]; trivial)) nofun nofun
      fun _ _ => by rw [h]; nofun
  | pass h hready => exact hatt.pass hM h hready _ rfl hex
  | @refuse _ t h hready =>
    refine hatt.move hex (fun _ => hwaits t (by rw [h]; trivial)) (fun _ => ?_) nofun
      fun _ _ => by rw [h]; nofun
    refine Bool.eq_false_iff.mpr fun hP => ?_
    rw [hM.ready _ hP] at hready
    cases hready
  | @sleep _ t h =>
    exact hatt.move hex (fun _ => hwaits t (by rw [h]; trivial)) nofun
      (fun _ => hatt.refused t h) fun _ _ => by rw [h]; nofun
  | unlockWait h => exact hatt.move hex False.elim nofun nofun fun _ _ => by rw [h]; nofun
  | lockCall h => exact hatt.move hex False.elim nofun nofun fun _ _ => by rw [h]; nofun
  | change h => exact hatt.change hM h _ rfl hpunctual hex
  | @notify _ _ op _ _ h hwoken =>
    refine hatt.notify h hwoken ?_ hex
    cases M.locked op with
    | true => exact Or.inl rfl
    | false => exact Or.inr rfl
  | unlockCall h => exact hatt.move hex False.elim nofun nofun fun _ _ => by rw [h]; nofun
  | @spurious _ t h =>
    exact hatt.move hex (fun _ => hwaits t (by rw [h]; trivial)) nofun nofun
      fun _ _ => by rw [h]; nofun

/-- The calls that may make `P` true take the mutex. -/
def LockedFor (M : Monitor δ ω) (P : δ → Bool) : Prop :=
  ∀ op d, P d = false → P (M.apply op d) = true → M.locked op = true

/-- A call that holds the mutex finds no thread between its test and its sleep. -/
theorem Attentive.punctual {kind : Kind} (hM : M.Wakes Waits P) (hlocked : M.LockedFor P)
    (hatt : Attentive M Waits P s) (h : Step M Waits kind s s') : Punctual P s s' := by
  intro hbefore hafter u hu
  cases h with
  | @pass _ t h hready =>
    exact Bool.false_ne_true (hbefore.symm.trans (hM.leave _ hready hafter))
  | @change _ t op h =>
    have hop := hlocked op s.data hbefore hafter
    have hholds : (s.place t).Holds M := by
      rcases h with h | ⟨_, hunlocked⟩
      · exact holds_of_eq h hop
      · exact absurd hop (ne_true_of_eq_false hunlocked)
    have heq := hatt.exclusive.unique (holds_of_eq hu trivial) hholds
    rw [heq] at hu
    rcases h with h | ⟨h, _⟩
    · cases h.symm.trans hu
    · cases h.symm.trans hu
  | wait | call | lockWait | refuse | sleep | unlockWait | lockCall | notify | unlockCall
  | spurious => exact Bool.false_ne_true (hbefore.symm.trans hafter)

/-- A run of steps that are all punctual. -/
theorem attentive_of_punctual {R : State T δ ω → State T δ ω → Prop} {d : δ}
    (hM : M.Wakes Waits P)
    (hR : ∀ s s', R s s' → (∃ kind, Step M Waits kind s s') ∧ Punctual P s s')
    (h : Relation.ReflTransGen R (.start d) s) : Attentive M Waits P s := by
  induction h with
  | refl => exact attentive_start M Waits P d
  | tail _ hstep ih =>
    obtain ⟨⟨kind, hstep⟩, hpunctual⟩ := hR _ _ hstep
    exact ih.step hM hstep hpunctual

/-- In no run does a thread sleep over `P` without a notification on its way, if only calls
under the mutex make it true. -/
theorem Reachable.attentive {d : δ} (hM : M.Wakes Waits P) (hlocked : M.LockedFor P)
    (h : Reachable M Waits d s) : Attentive M Waits P s := by
  induction h with
  | refl => exact attentive_start M Waits P d
  | tail _ hstep ih =>
    obtain ⟨kind, hstep⟩ := hstep
    exact ih.step hM hstep (ih.punctual hM hlocked hstep)

end Attentive

/-! ## Runs come to rest -/

section Rest

variable [Fintype T] {M : Monitor δ ω} {Waits : T → Prop} {P : δ → Bool} {s s' : State T δ ω}
  {t : T}

omit [DecidableEq T] in
private theorem exists_woken (signal : Signal) (place : T → Place ω) :
    ∃ woken, signal.Wakes place woken := by
  classical
  cases signal with
  | none => exact ⟨∅, fun t h => absurd h (Finset.notMem_empty t), rfl⟩
  | one =>
    by_cases h : ∃ t, place t = .asleep
    · obtain ⟨t, ht⟩ := h
      refine ⟨{t}, fun u hu => ?_, Or.inr ⟨t, rfl⟩⟩
      rw [Finset.mem_singleton.mp hu]
      exact ht
    · exact ⟨∅, fun t h => absurd h (Finset.notMem_empty t), Or.inl (not_exists.mp h)⟩
  | all =>
    refine ⟨Finset.univ.filter fun t => place t = .asleep, fun t ht => ?_, fun t ht => ?_⟩
    · exact (Finset.mem_filter.mp ht).2
    · exact Finset.mem_filter.mpr ⟨Finset.mem_univ t, ht⟩

private theorem AtRest.not_notifying (hrest : AtRest M Waits s) (op : ω) (signal : Signal) :
    s.place t ≠ .notifying op signal := by
  intro h
  obtain ⟨woken, hwoken⟩ := exists_woken signal s.place
  exact hrest _ (.notify h hwoken)

/-- Whoever holds the mutex can go on. -/
theorem AtRest.not_holds (hrest : AtRest M Waits s) : ¬ (s.place t).Holds M := by
  intro hholds
  cases h : s.place t with
  | testing =>
    cases hready : M.ready s.data with
    | true => exact hrest _ (.pass h hready)
    | false => exact hrest _ (.refuse h hready)
  | refused => exact hrest _ (.sleep h)
  | leaving => exact hrest _ (.unlockWait h)
  | changing op => exact hrest _ (.change (Or.inl h))
  | notifying op signal => exact hrest.not_notifying op signal h
  | unlocking => exact hrest _ (.unlockCall h)
  | away | entering | asleep | calling _ =>
    rw [h] at hholds
    exact hholds

/-- At rest every thread is outside or asleep, and a sleeper has nothing to wake for. -/
theorem Attentive.atRest (hatt : Attentive M Waits P s) (hrest : AtRest M Waits s) (t : T) :
    s.place t = .away ∨ (s.place t = .asleep ∧ P s.data = false) := by
  have hfree : s.owner = none := by
    cases howner : s.owner with
    | none => rfl
    | some u => exact absurd ((hatt.exclusive u).mp howner) hrest.not_holds
  have hholds : ¬ (s.place t).Holds M := hrest.not_holds
  cases h : s.place t with
  | away => exact Or.inl rfl
  | entering => exact absurd (.lockWait h hfree) (hrest _)
  | asleep =>
    refine Or.inr ⟨rfl, Bool.eq_false_iff.mpr fun hP => ?_⟩
    obtain ⟨u, op, signal, hu, _⟩ := hatt.asleep t h hP
    exact hrest.not_notifying op signal hu
  | calling op =>
    cases hlocked : M.locked op with
    | true => exact absurd (.lockCall h hlocked hfree) (hrest _)
    | false => exact absurd (.change (Or.inr ⟨h, hlocked⟩)) (hrest _)
  | notifying op signal => exact absurd h (hrest.not_notifying op signal)
  | changing op => exact absurd (.change (Or.inl h)) (hrest _)
  | testing | refused | leaving | unlocking =>
    rw [h] at hholds
    exact absurd trivial hholds

omit [Fintype T] in
/-- With all threads outside or asleep, nobody can go on. -/
theorem atRest_of_places (h : ∀ t, s.place t = .away ∨ s.place t = .asleep) :
    AtRest M Waits s := by
  intro s' hstep
  cases hstep with
  | @lockWait _ t hplace | @pass _ t hplace | @refuse _ t hplace | @sleep _ t hplace
  | @unlockWait _ t hplace | @lockCall _ t _ hplace | @notify _ t _ _ _ hplace
  | @unlockCall _ t hplace =>
    rcases h t with haway | hasleep
    · cases hplace.symm.trans haway
    · cases hplace.symm.trans hasleep
  | @change _ t op hop =>
    rcases h t with haway | hasleep
    · rcases hop with hplace | ⟨hplace, _⟩ <;> cases hplace.symm.trans haway
    · rcases hop with hplace | ⟨hplace, _⟩ <;> cases hplace.symm.trans hasleep

/-- What a thread may still cost before it is outside or asleep; a notification may send
`n` sleepers back. -/
def Place.cost (n : Nat) : Place ω → Nat
  | .away | .asleep => 0
  | .refused | .leaving | .unlocking => 1
  | .testing => 2
  | .entering => 3
  | .notifying _ _ => 3 * n + 2
  | .changing _ => 3 * n + 3
  | .calling _ => 3 * n + 4

/-- What is left for all threads to do before they rest. -/
def State.potential (s : State T δ ω) : Nat := ∑ t, (s.place t).cost (Fintype.card T)

private theorem potential_move (s : State T δ ω) (t : T) (p : Place ω) :
    (s.move t p).potential + (s.place t).cost (Fintype.card T) =
      s.potential + p.cost (Fintype.card T) := by
  have hold := Finset.add_sum_erase Finset.univ
    (fun u => (s.place u).cost (Fintype.card T)) (Finset.mem_univ t)
  have hnew := Finset.add_sum_erase Finset.univ
    (fun u => ((s.move t p).place u).cost (Fintype.card T)) (Finset.mem_univ t)
  have hsame : ∑ u ∈ Finset.univ.erase t, ((s.move t p).place u).cost (Fintype.card T) =
      ∑ u ∈ Finset.univ.erase t, (s.place u).cost (Fintype.card T) := by
    refine Finset.sum_congr rfl fun u hu => ?_
    rw [State.move_place_of_ne s (Finset.ne_of_mem_erase hu)]
  simp only [State.move_place_self] at hnew
  unfold State.potential
  omega

private theorem potential_wake_le (s : State T δ ω) (woken : Finset T) :
    (s.wake woken).potential ≤ s.potential + 3 * Fintype.card T := by
  have hcard : ∑ _t : T, 3 = 3 * Fintype.card T := by
    rw [Finset.sum_const, Finset.card_univ, Nat.nsmul_eq_mul, Nat.mul_comm]
  rw [← hcard, State.potential, State.potential, ← Finset.sum_add_distrib]
  refine Finset.sum_le_sum fun t _ => ?_
  change (if t ∈ woken then Place.entering else s.place t).cost _ ≤ _
  split
  · exact Nat.le_add_left _ _
  · exact Nat.le_add_right _ _

private theorem potential_move_lt {p : Place ω}
    (h : p.cost (Fintype.card T) < (s.place t).cost (Fintype.card T)) :
    (s.move t p).potential < s.potential := by
  have hmove := potential_move s t p
  omega

/-- Every step inside brings the threads closer to rest. -/
theorem Step.potential_lt (h : Step M Waits .progress s s') : s'.potential < s.potential := by
  cases h with
  | lockWait h | refuse h | sleep h | unlockWait h | unlockCall h =>
    refine potential_move_lt ?_
    simp only [h, Place.cost]
    omega
  | @pass _ t h =>
    refine @potential_move_lt _ _ _ _ _ s t .leaving ?_
    simp only [h, Place.cost]
    omega
  | @lockCall _ t op h =>
    refine @potential_move_lt _ _ _ _ _ s t (.changing op) ?_
    simp only [h, Place.cost]
    omega
  | @change _ t op h =>
    refine @potential_move_lt _ _ _ _ _ s t (.notifying op (M.signal op (M.apply op s.data))) ?_
    rcases h with h | ⟨h, _⟩
    · simp only [h, Place.cost]
      omega
    · simp only [h, Place.cost]
      omega
  | @notify _ t op signal woken h hwoken =>
    have hnext : (if M.locked op then .unlocking else .away : Place ω).cost (Fintype.card T) ≤ 1 := by
      split
      · exact Nat.le_refl 1
      · exact Nat.zero_le 1
    have hmove := potential_move (s.wake woken) t (if M.locked op then .unlocking else .away)
    rw [wake_place_of_not_mem (not_mem_woken hwoken h nofun), h, Place.cost] at hmove
    have hwake := potential_wake_le s woken
    omega

/-- A run of steps inside, from one state on. -/
abbrev Settling (M : Monitor δ ω) (Waits : T → Prop) : State T δ ω → State T δ ω → Prop :=
  Relation.ReflTransGen (Step M Waits .progress)

/-- Every state comes to rest. -/
theorem exists_settling (M : Monitor δ ω) (Waits : T → Prop) (s : State T δ ω) :
    ∃ s', Settling M Waits s s' ∧ AtRest M Waits s' := by
  induction hn : s.potential using Nat.strong_induction_on generalizing s with
  | _ n ih =>
    by_cases hrest : AtRest M Waits s
    · exact ⟨s, .refl, hrest⟩
    · obtain ⟨next, hstep⟩ := not_forall_not.mp hrest
      obtain ⟨s', hrun, hrest'⟩ := ih _ (hn ▸ hstep.potential_lt) next rfl
      exact ⟨s', .head hstep hrun, hrest'⟩

omit [Fintype T] in
/-- Settling leads to reachable states only. -/
theorem Reachable.settling {d : δ} (h : Reachable M Waits d s) (hrun : Settling M Waits s s') :
    Reachable M Waits d s' := by
  induction hrun with
  | refl => exact h
  | tail _ hstep ih => exact ih.tail ⟨.progress, hstep⟩

/-- Where the calls and the waiting loops of any run end up, left to themselves. -/
theorem Reachable.settled {d : δ} (hM : M.Wakes Waits P) (hlocked : M.LockedFor P)
    (h : Reachable M Waits d s) (hrun : Settling M Waits s s') (hrest : AtRest M Waits s') (t : T) :
    s'.place t = .away ∨ (s'.place t = .asleep ∧ P s'.data = false) :=
  ((h.settling hrun).attentive hM hlocked).atRest hrest t

end Rest

/-! ## What the data remembers -/

section History

variable {M : Monitor δ ω} {Waits : T → Prop} {s s' : State T δ ω} {d : δ}

/-- An invariant of the data, the departures and the calls made. -/
theorem Reachable.invariant {P : δ → List (T × δ) → List ω → Prop} (h : Reachable M Waits d s)
    (hstart : P d [] [])
    (hpass : ∀ t d l ops, P d l ops → M.ready d = true → P (M.leave d) (l ++ [(t, d)]) ops)
    (hchange : ∀ op d l ops, P d l ops → P (M.apply op d) l (ops ++ [op])) :
    P s.data s.departures s.history := by
  induction h with
  | refl => exact hstart
  | tail _ hstep ih =>
    obtain ⟨kind, hstep⟩ := hstep
    cases hstep with
    | pass h hready => exact hpass _ _ _ _ ih hready
    | change h => exact hchange _ _ _ _ ih
    | wait | call | lockWait | refuse | sleep | unlockWait | lockCall | notify | unlockCall
    | spurious => exact ih

end History

end Monitor

end ChatRoom.Core
