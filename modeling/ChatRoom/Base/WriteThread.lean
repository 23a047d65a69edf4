import ChatRoom.Base.LogRolling
import ChatRoom.Core.Monitor

/-!
# The log under its mutex

`m_mutexWrite` and `m_cvWrite` around the list of lines, with `writeThreadProc` taking a line
under the mutex and writing it after. The run of the threads is one of `CAsyncLog.step`, where
the thread takes its turns at one stroke. `uninit` sets `m_bExit` without the mutex.
-/

namespace ChatRoom.Base

open ChatRoom.Core Monitor

/-- The log, and the line that the thread has taken off the list and not written yet. -/
structure LogData where
  log : CAsyncLog
  strLine : Option Bytes

/-- What the threads do to the log: a line is output, `uninit` is called, and
`writeThreadProc` looks for a file and writes the line that it has taken. -/
inductive LogCall where
  | output (strLine : Bytes)
  | uninit
  | checkFile (now : Int) (fopen : Bool)
  | write

namespace CAsyncLog

/-- Take the front of the list. -/
def popLine (s : CAsyncLog) (strLine : Bytes) (rest : List Bytes) : CAsyncLog :=
  { s with listLinesToWrite := rest, taken := s.taken ++ [strLine] }

/-- The loop of `writeThreadProc` behind the block under the mutex. -/
def finishLine (s : CAsyncLog) (strLine : Bytes) : CAsyncLog :=
  if s.strFileName = [] then { s with position := Position.top }
  else
    let written := s.writeToFile strLine
    if written.1 then
      { written.2 with
        currentWrittenSize := s.currentWrittenSize + strLine.length, position := Position.top }
    else { written.2 with position := Position.done }

private theorem finishLine_popLine (s : CAsyncLog) (strLine : Bytes) (rest : List Bytes) :
    (s.popLine strLine rest).finishLine strLine = s.writeLine strLine rest := rfl

/-- What is put into the list meanwhile does not matter to the line in hand. -/
theorem finishLine_frame (s : CAsyncLog) (strLine : Bytes) (lines : List Bytes) (exit : Bool) :
    { s with listLinesToWrite := lines, exit := exit }.finishLine strLine =
      { s.finishLine strLine with listLinesToWrite := lines, exit := exit } := by
  simp only [finishLine, writeToFile]
  split
  · rfl
  · rcases Bool.eq_false_or_eq_true (writtenBytes strLine).1 with hwritten | hwritten
    · simp only [hwritten, if_true]
    · simp only [hwritten, Bool.false_eq_true, if_false]

private theorem finishLine_list (s : CAsyncLog) (strLine : Bytes) :
    (s.finishLine strLine).listLinesToWrite = s.listLinesToWrite ∧
      (s.finishLine strLine).exit = s.exit := by
  have hframe := finishLine_frame s strLine s.listLinesToWrite s.exit
  rw [hframe]
  exact ⟨rfl, rfl⟩

end CAsyncLog

namespace LogData

/-- The waiting loop of `writeThreadProc` and the block around it. -/
def monitor (localtime : Int → Tm) : Monitor LogData LogCall where
  ready d := decide (d.log.listLinesToWrite ≠ []) || d.log.exit
  leave d :=
    match d.log.listLinesToWrite with
    | [] => { d with log := { d.log with position := Position.done } }
    | strLine :: rest => ⟨d.log.popLine strLine rest, some strLine⟩
  apply
    | .output strLine, d =>
      { d with log := { d.log with listLinesToWrite := d.log.listLinesToWrite ++ [strLine] } }
    | .uninit, d => { d with log := { d.log with exit := true } }
    | .checkFile now fopen, d => { d with log := d.log.checkFile localtime now fopen }
    | .write, d =>
      match d.strLine with
      | none => d
      | some strLine => ⟨d.log.finishLine strLine, none⟩
  signal
    | .output _, _ => .one
    | .uninit, _ => .one
    | .checkFile _ _, _ => .none
    | .write, _ => .none
  locked
    | .output _ => true
    | .uninit => false
    | .checkFile _ _ => false
    | .write => false

/-- The log with the line in hand written. -/
def finished (d : LogData) : CAsyncLog :=
  match d.strLine with
  | none => d.log
  | some strLine => d.log.finishLine strLine

/-- A line that waits for the thread. -/
def hasLine (d : LogData) : Bool := decide (d.log.listLinesToWrite ≠ [])

/-- `m_bExit`. -/
def exits (d : LogData) : Bool := d.log.exit

end LogData

open LogData

section Order

variable {T : Type*}

/-- What `writeThreadProc` calls, and where in its loop; the other threads output lines and
call `uninit`. -/
def Permitted (writer t : T) (d : LogData) : LogCall → Prop
  | .output _ => t ≠ writer
  | .uninit => t ≠ writer
  | .checkFile _ _ => t = writer ∧ d.log.position = Position.top ∧ d.strLine = none
  | .write => t = writer ∧ d.strLine ≠ none

/-- The threads enter and call in the order of their programs. -/
structure InOrder (writer : T) (s s' : State T LogData LogCall) : Prop where
  wait : ∀ t, s.place t = .away → s'.place t = .entering →
    s.data.log.position = Position.wait ∧ s.data.strLine = none
  call : ∀ t op, s.place t = .away → s'.place t = .calling op → Permitted writer t s.data op

variable [DecidableEq T]

/-- A step of one of the threads. -/
def LogStep (localtime : Int → Tm) (writer : T) (s s' : State T LogData LogCall) : Prop :=
  (∃ kind, Step (monitor localtime) (· = writer) kind s s') ∧ InOrder writer s s'

/-- The states of all runs after `init`. -/
def LogReachable (localtime : Int → Tm) (writer : T) (fileName pid : Bytes) (rollSize : Int) :
    State T LogData LogCall → Prop :=
  Relation.ReflTransGen (LogStep localtime writer)
    (.start ⟨CAsyncLog.init fileName pid rollSize, none⟩)

/-! ## The order of the calls -/

/-- Where the thread's loop is when it stands at a place of the monitor. -/
def Fits (d : LogData) : Place LogCall → Prop
  | .entering | .testing | .refused | .asleep =>
    d.log.position = Position.wait ∧ d.strLine = none
  | .calling (.checkFile _ _) => d.log.position = Position.top ∧ d.strLine = none
  | .changing (.output _) => True
  | .changing _ => False
  | _ => True

/-- Whose place it is. -/
def Mine (writer t : T) : Place LogCall → Prop
  | .entering | .testing | .refused | .asleep | .leaving => t = writer
  | .calling (.output _) | .calling .uninit | .changing (.output _) => t ≠ writer
  | .calling (.checkFile _ _) | .calling .write => t = writer
  | _ => True

/-- Every thread is where the list, the line in hand and the files put it. -/
def Ordered (writer : T) (s : State T LogData LogCall) : Prop :=
  ∀ t, Fits s.data (s.place t) ∧ Mine writer t (s.place t)

section Lemmas

variable {localtime : Int → Tm} {writer t : T} {s s' : State T LogData LogCall}
  {p : Place LogCall} {d d' : LogData}

omit [DecidableEq T] in
private theorem ordered_start (writer : T) (d : LogData) :
    Ordered writer (State.start d : State T LogData LogCall) := fun _ => ⟨trivial, trivial⟩

private theorem Fits.frame (h : Fits d p) (hposition : d'.log.position = d.log.position)
    (hline : d'.strLine = d.strLine) : Fits d' p := by
  cases p with
  | entering | testing | refused | asleep => exact ⟨hposition.trans h.1, hline.trans h.2⟩
  | calling op =>
    cases op with
    | checkFile now fopen => exact ⟨hposition.trans h.1, hline.trans h.2⟩
    | output _ | uninit | write => trivial
  | changing op =>
    cases op with
    | output _ => trivial
    | checkFile _ _ | uninit | write => exact h
  | away | leaving | notifying _ _ | unlocking => trivial

omit [DecidableEq T] in
/-- Only the writer stands where the state of its loop matters. -/
theorem Fits.other (h : Fits d p) (hmine : Mine writer t p) (hne : t ≠ writer) : Fits d' p := by
  cases p with
  | entering | testing | refused | asleep => exact absurd hmine hne
  | calling op =>
    cases op with
    | checkFile now fopen => exact absurd hmine hne
    | output _ | uninit | write => trivial
  | changing op =>
    cases op with
    | output _ => trivial
    | checkFile _ _ | uninit | write => exact h
  | away | leaving | notifying _ _ | unlocking => trivial

/-- A step of one thread to the place `p`, with what it does to the data. -/
theorem Ordered.move (h : Ordered writer s) (hs : s'.data = d)
    (hplace : s'.place = (s.move t p).place) (hfits : Fits d p) (hmine : Mine writer t p)
    (hothers : ∀ u, u ≠ t → Fits d (s.place u)) : Ordered writer s' := by
  intro u
  rw [hs, hplace]
  by_cases hu : u = t
  · rw [hu, State.move_place_self]
    exact ⟨hfits, hmine⟩
  · rw [State.move_place_of_ne s hu]
    exact ⟨hothers u hu, (h u).2⟩

private theorem Ordered.wake (h : Ordered writer s) {woken : Finset T}
    (hwoken : ∀ u ∈ woken, s.place u = .asleep) : Ordered writer (s.wake woken) := by
  intro u
  change Fits s.data (if u ∈ woken then .entering else s.place u) ∧
    Mine writer u (if u ∈ woken then .entering else s.place u)
  split
  · next hu =>
    have hasleep := h u
    rw [hwoken u hu] at hasleep
    exact hasleep
  · exact h u

omit [DecidableEq T] in
/-- What `change` finds: a line under the mutex, or a call of `Permitted` without it. -/
theorem Ordered.change_cases (h : Ordered writer s) {op : LogCall}
    (hop : s.place t = .changing op ∨
      (s.place t = .calling op ∧ (monitor localtime).locked op = false)) :
    (t ≠ writer ∧ ∃ strLine, op = .output strLine) ∨ (t ≠ writer ∧ op = .uninit) ∨
      (t = writer ∧ s.data.log.position = Position.top ∧ s.data.strLine = none ∧
        ∃ now fopen, op = .checkFile now fopen) ∨ (t = writer ∧ op = .write) := by
  obtain ⟨hfits, hmine⟩ := h t
  rcases hop with hop | ⟨hop, hlocked⟩
  · rw [hop] at hfits hmine
    cases op with
    | output strLine => exact Or.inl ⟨hmine, strLine, rfl⟩
    | uninit | checkFile _ _ | write => exact hfits.elim
  · rw [hop] at hfits hmine
    cases op with
    | output _ => cases hlocked
    | uninit => exact Or.inr (Or.inl ⟨hmine, rfl⟩)
    | checkFile now fopen =>
      exact Or.inr (Or.inr (Or.inl ⟨hmine, hfits.1, hfits.2, now, fopen, rfl⟩))
    | write => exact Or.inr (Or.inr (Or.inr ⟨hmine, rfl⟩))

/-- A call of another thread leaves the thread's loop where it is. -/
theorem apply_frame (localtime : Int → Tm) (d : LogData) {op : LogCall}
    (hop : (∃ strLine, op = .output strLine) ∨ op = .uninit) :
    ((monitor localtime).apply op d).log.position = d.log.position ∧
      ((monitor localtime).apply op d).strLine = d.strLine := by
  rcases hop with ⟨strLine, rfl⟩ | rfl
  · exact ⟨rfl, rfl⟩
  · exact ⟨rfl, rfl⟩

private theorem Ordered.step (h : Ordered writer s) (hstep : LogStep localtime writer s s') :
    Ordered writer s' := by
  obtain ⟨⟨kind, hstep⟩, hwait, hcall⟩ := hstep
  have hsame : ∀ u, Fits s.data (s.place u) := fun u => (h u).1
  cases hstep with
  | @wait _ t hplace hwaits =>
    exact h.move rfl rfl (hwait t hplace (State.move_place_self ..)) hwaits fun u _ => hsame u
  | @call _ t op hplace =>
    have hpermitted := hcall t op hplace (State.move_place_self ..)
    cases op with
    | output _ | uninit => exact h.move rfl rfl trivial hpermitted fun u _ => hsame u
    | checkFile _ _ => exact h.move rfl rfl hpermitted.2 hpermitted.1 fun u _ => hsame u
    | write => exact h.move rfl rfl trivial hpermitted.1 fun u _ => hsame u
  | @lockWait _ t hplace | @refuse _ t hplace | @sleep _ t hplace | @spurious _ t hplace =>
    have ht := h t
    rw [hplace] at ht
    exact h.move rfl rfl ht.1 ht.2 fun u _ => hsame u
  | @pass _ t hplace hready =>
    have ht := h t
    rw [hplace] at ht
    refine h.move rfl rfl trivial ht.2 fun u hu => (hsame u).other (h u).2 ?_
    rw [← ht.2]
    exact hu
  | unlockWait | unlockCall => exact h.move rfl rfl trivial trivial fun u _ => hsame u
  | @lockCall _ t op hplace hlocked =>
    have ht := h t
    rw [hplace] at ht
    cases op with
    | output _ => exact h.move rfl rfl trivial ht.2 fun u _ => hsame u
    | uninit | checkFile _ _ | write => cases hlocked
  | @change _ t op hop =>
    refine h.move rfl rfl trivial trivial fun u hu => ?_
    rcases h.change_cases hop with ⟨_, hline⟩ | ⟨_, hexit⟩ | ⟨rfl, _⟩ | ⟨rfl, _⟩
    · obtain ⟨hposition, hsame'⟩ := apply_frame localtime s.data (Or.inl hline)
      exact (hsame u).frame hposition hsame'
    · obtain ⟨hposition, hsame'⟩ := apply_frame localtime s.data (Or.inr hexit)
      exact (hsame u).frame hposition hsame'
    · exact (hsame u).other (h u).2 hu
    · exact (hsame u).other (h u).2 hu
  | @notify _ t op _ woken hplace hwoken =>
    have hwake := h.wake hwoken.1
    have hafter : Fits s.data (if (monitor localtime).locked op then .unlocking else .away) ∧
        Mine writer t (if (monitor localtime).locked op then .unlocking else .away) := by
      split
      · exact ⟨trivial, trivial⟩
      · exact ⟨trivial, trivial⟩
    exact hwake.move rfl rfl hafter.1 hafter.2 fun u _ => (hwake u).1

/-! ## The turns of the thread at one stroke -/

/-- The line that a call puts into the list. -/
def callLine : LogCall → Option Bytes
  | .output strLine => some strLine
  | .uninit => none
  | .checkFile _ _ => none
  | .write => none

private theorem finished_of_none (h : d.strLine = none) : d.finished = d.log := by
  rw [finished, h]

private theorem finished_of_some {strLine : Bytes} (h : d.strLine = some strLine) :
    d.finished = d.log.finishLine strLine := by
  rw [finished, h]

/-- Other threads act on the list while a line is in hand as they do when it is written. -/
theorem finished_frame (d : LogData) (lines : List Bytes) (exit : Bool) :
    finished { d with log := { d.log with listLinesToWrite := lines, exit := exit } } =
      { d.finished with listLinesToWrite := lines, exit := exit } := by
  obtain ⟨log, hand⟩ := d
  cases hand with
  | none => rfl
  | some strLine => exact CAsyncLog.finishLine_frame log strLine lines exit

private theorem finished_list (d : LogData) :
    d.finished.listLinesToWrite = d.log.listLinesToWrite ∧ d.finished.exit = d.log.exit := by
  cases hline : d.strLine with
  | none =>
    rw [finished_of_none hline]
    exact ⟨rfl, rfl⟩
  | some strLine =>
    rw [finished_of_some hline]
    exact CAsyncLog.finishLine_list d.log strLine

/-- Leaving the waiting loop is a turn of the thread. -/
theorem finished_leave (hposition : d.log.position = Position.wait) (hline : d.strLine = none)
    (hready : (monitor localtime).ready d = true) :
    ((monitor localtime).leave d).finished =
      CAsyncLog.step localtime d.finished (.turn 0 true) := by
  obtain ⟨log, hand⟩ := d
  obtain rfl : hand = none := hline
  dsimp only at hposition
  have hnone : finished ⟨log, none⟩ = log := rfl
  rw [hnone, CAsyncLog.step, CAsyncLog.writeThreadProc, hposition]
  cases hlist : log.listLinesToWrite with
  | nil =>
    have hexit : log.exit = true := by
      simp only [monitor, hlist, ne_eq, not_true, decide_false, Bool.false_or] at hready
      exact hready
    have hleave : (monitor localtime).leave ⟨log, none⟩ =
        ⟨{ log with position := Position.done }, none⟩ := by
      simp only [monitor, hlist]
    rw [hleave, finished_of_none rfl]
    dsimp only
    rw [hlist]
    exact (if_pos hexit).symm
  | cons strLine rest =>
    have hleave : (monitor localtime).leave ⟨log, none⟩ =
        ⟨log.popLine strLine rest, some strLine⟩ := by
      simp only [monitor, hlist]
    rw [hleave]
    exact CAsyncLog.finishLine_popLine log strLine rest

/-- Every step is an event of the log, or nothing that can be told from the files. -/
theorem Ordered.finished_step (h : Ordered writer s) (hstep : LogStep localtime writer s s') :
    ∃ events : List Event,
      s'.data.finished = events.foldl (CAsyncLog.step localtime) s.data.finished ∧
        s'.history.filterMap callLine =
          s.history.filterMap callLine ++ events.filterMap CAsyncLog.outputLine := by
  obtain ⟨⟨kind, hstep⟩, _⟩ := hstep
  have hnothing : s'.data.finished = s.data.finished →
      s'.history.filterMap callLine = s.history.filterMap callLine →
      ∃ events : List Event,
        s'.data.finished = events.foldl (CAsyncLog.step localtime) s.data.finished ∧
          s'.history.filterMap callLine =
            s.history.filterMap callLine ++ events.filterMap CAsyncLog.outputLine :=
    fun hdata hhistory => ⟨[], hdata, hhistory.trans (List.append_nil _).symm⟩
  cases hstep with
  | wait | call | lockWait | refuse | sleep | unlockWait | lockCall | notify | unlockCall
  | spurious => exact hnothing rfl rfl
  | @pass _ t hplace hready =>
    have ht := (h t).1
    rw [hplace] at ht
    exact ⟨[.turn 0 true], finished_leave ht.1 ht.2 hready, (List.append_nil _).symm⟩
  | @change _ t op hop =>
    have hmore : ∀ e, callLine op = CAsyncLog.outputLine e →
        (s.history ++ [op]).filterMap callLine =
          s.history.filterMap callLine ++ [e].filterMap CAsyncLog.outputLine := by
      intro e he
      rw [List.filterMap_append, List.filterMap_cons, List.filterMap_cons, he]
      rfl
    rcases h.change_cases hop with ⟨_, strLine, rfl⟩ | ⟨_, rfl⟩ |
      ⟨_, hposition, hline, now, fopen, rfl⟩ | ⟨_, rfl⟩
    · refine ⟨[.output strLine], ?_, hmore (.output strLine) rfl⟩
      have hframe := finished_frame s.data (s.data.log.listLinesToWrite ++ [strLine])
        s.data.log.exit
      obtain ⟨hlist, hexit⟩ := finished_list s.data
      rw [List.foldl_cons, List.foldl_nil, CAsyncLog.step, hlist]
      refine hframe.trans ?_
      rw [← hexit]
    · refine ⟨[.uninit], ?_, hmore .uninit rfl⟩
      have hframe := finished_frame s.data s.data.log.listLinesToWrite true
      obtain ⟨hlist, _⟩ := finished_list s.data
      rw [List.foldl_cons, List.foldl_nil, CAsyncLog.step]
      refine hframe.trans ?_
      rw [← hlist]
    · refine ⟨[.turn now fopen], ?_, hmore (.turn now fopen) rfl⟩
      rw [List.foldl_cons, List.foldl_nil, CAsyncLog.step, CAsyncLog.writeThreadProc,
        finished_of_none hline, hposition]
      exact finished_of_none hline
    · refine hnothing ?_ ?_
      · cases hline : s.data.strLine with
        | none =>
          have hsame : (monitor localtime).apply .write s.data = s.data := by
            simp only [monitor, hline]
          exact congrArg finished hsame
        | some strLine =>
          have hdone : (monitor localtime).apply .write s.data =
              ⟨s.data.log.finishLine strLine, none⟩ := by
            simp only [monitor, hline]
          rw [finished_of_some hline]
          exact congrArg finished hdone
      · rw [List.filterMap_append]
        exact List.append_nil _

/-! ## Waking up for a line, and for the end -/

private theorem listLinesToWrite_checkFile (s : CAsyncLog) (localtime : Int → Tm) (now : Int)
    (fopen : Bool) :
    (s.checkFile localtime now fopen).listLinesToWrite = s.listLinesToWrite ∧
      (s.checkFile localtime now fopen).exit = s.exit := by
  rw [CAsyncLog.checkFile]
  split
  · cases fopen <;> exact ⟨rfl, rfl⟩
  · exact ⟨rfl, rfl⟩

private theorem log_apply_write (localtime : Int → Tm) (d : LogData) :
    ((monitor localtime).apply .write d).log.listLinesToWrite = d.log.listLinesToWrite ∧
      ((monitor localtime).apply .write d).log.exit = d.log.exit := by
  obtain ⟨log, hand⟩ := d
  cases hand with
  | none => exact ⟨rfl, rfl⟩
  | some strLine => exact CAsyncLog.finishLine_list log strLine

private theorem hasLine_eq {d d' : LogData} (h : d'.log.listLinesToWrite = d.log.listLinesToWrite) :
    d'.hasLine = d.hasLine := by
  rw [hasLine, hasLine, h]

/-- Only `output` makes the list non-empty. -/
theorem output_of_hasLine {op : LogCall} (hbefore : d.hasLine = false)
    (hafter : ((monitor localtime).apply op d).hasLine = true) :
    ∃ strLine, op = .output strLine := by
  cases op with
  | output strLine => exact ⟨strLine, rfl⟩
  | uninit => exact absurd (hbefore.symm.trans hafter) Bool.false_ne_true
  | checkFile now fopen =>
    have hsame : ((monitor localtime).apply (.checkFile now fopen) d).hasLine = d.hasLine :=
      hasLine_eq (listLinesToWrite_checkFile d.log localtime now fopen).1
    exact absurd ((hsame.trans hbefore).symm.trans hafter) Bool.false_ne_true
  | write =>
    have hsame := hasLine_eq (log_apply_write localtime d).1
    exact absurd ((hsame.trans hbefore).symm.trans hafter) Bool.false_ne_true

private theorem log_leave (localtime : Int → Tm) (d : LogData) :
    (((monitor localtime).leave d).hasLine = true → d.hasLine = true) ∧
      ((monitor localtime).leave d).exits = d.exits := by
  simp only [monitor]
  cases hlist : d.log.listLinesToWrite with
  | nil => exact ⟨fun h => absurd h Bool.false_ne_true, rfl⟩
  | cons strLine rest =>
    refine ⟨fun _ => ?_, rfl⟩
    rw [hasLine, hlist]
    rfl

omit [DecidableEq T] in
private theorem line_wakes (localtime : Int → Tm) (writer : T) :
    (monitor localtime).Wakes (· = writer) hasLine where
  ready d h := by
    rw [hasLine] at h
    simp only [monitor, h, Bool.true_or]
  leave d _ h := (log_leave localtime d).1 h
  signal op d hbefore hafter := by
    obtain ⟨strLine, rfl⟩ := output_of_hasLine hbefore hafter
    exact Or.inr ⟨rfl, fun t u ht hu => ht.trans hu.symm⟩

private theorem line_lockedFor (localtime : Int → Tm) : (monitor localtime).LockedFor hasLine := by
  intro op d hbefore hafter
  obtain ⟨strLine, rfl⟩ := output_of_hasLine hbefore hafter
  rfl

omit [DecidableEq T] in
private theorem exit_wakes (localtime : Int → Tm) (writer : T) :
    (monitor localtime).Wakes (· = writer) exits where
  ready d h := by
    rw [exits] at h
    simp only [monitor, h, Bool.or_true]
  leave d _ h := (log_leave localtime d).2.symm.trans h
  signal op d hbefore hafter := by
    cases op with
    | uninit => exact Or.inr ⟨rfl, fun t u ht hu => ht.trans hu.symm⟩
    | output _ => exact absurd (hbefore.symm.trans hafter) Bool.false_ne_true
    | checkFile now fopen =>
      have hsame : ((monitor localtime).apply (.checkFile now fopen) d).exits = d.exits :=
        (listLinesToWrite_checkFile d.log localtime now fopen).2
      exact absurd ((hsame.trans hbefore).symm.trans hafter) Bool.false_ne_true
    | write =>
      have hsame : ((monitor localtime).apply .write d).exits = d.exits :=
        (log_apply_write localtime d).2
      exact absurd ((hsame.trans hbefore).symm.trans hafter) Bool.false_ne_true

/-! ## Whole runs -/

variable {fileName pid : Bytes} {rollSize : Int}

private theorem LogReachable.reachable (h : LogReachable localtime writer fileName pid rollSize s) :
    Reachable (monitor localtime) (· = writer) ⟨CAsyncLog.init fileName pid rollSize, none⟩ s :=
  Relation.ReflTransGen.mono (fun _ _ hstep => hstep.1) _ _ h

private theorem LogReachable.ordered (h : LogReachable localtime writer fileName pid rollSize s) :
    Ordered writer s := by
  induction h with
  | refl => exact ordered_start writer _
  | tail _ hstep ih => exact ih.step hstep

private theorem LogReachable.refines (h : LogReachable localtime writer fileName pid rollSize s) :
    ∃ events : List Event,
      s.data.finished = events.foldl (CAsyncLog.step localtime)
        (CAsyncLog.init fileName pid rollSize) ∧
      s.history.filterMap callLine = events.filterMap CAsyncLog.outputLine := by
  induction h with
  | refl => exact ⟨[], rfl, rfl⟩
  | tail hrun hstep ih =>
    obtain ⟨events, hdata, hhistory⟩ := ih
    have hordered : Ordered writer _ := LogReachable.ordered hrun
    obtain ⟨more, hmore, hlines⟩ := hordered.finished_step hstep
    refine ⟨events ++ more, ?_, ?_⟩
    · rw [hmore, hdata, List.foldl_append]
    · rw [hlines, hhistory, List.filterMap_append]

/-- A run of the threads, with the mutex and the sleeping of the writer, leaves the log as a
run does in which the writer takes its turns at one stroke, with the lines in the order in
which their callers had the mutex; and a writer that sleeps at rest has taken them all. -/
theorem write_thread_refines [Fintype T]
    (h : LogReachable localtime writer fileName pid rollSize s) :
    (∃ events : List Event,
      s.data.finished = events.foldl (CAsyncLog.step localtime)
        (CAsyncLog.init fileName pid rollSize) ∧
      s.history.filterMap callLine = events.filterMap CAsyncLog.outputLine) ∧
    (AtRest (monitor localtime) (· = writer) s → s.place writer = .asleep →
      s.data.log.taken = s.history.filterMap callLine) := by
  refine ⟨h.refines, fun hrest hasleep => ?_⟩
  have hatt := h.reachable.attentive (line_wakes localtime writer) (line_lockedFor localtime)
  have hempty : s.data.log.listLinesToWrite = [] := by
    rcases hatt.atRest hrest writer with haway | ⟨_, hline⟩
    · cases hasleep.symm.trans haway
    · rw [hasLine, decide_eq_false_iff_not, not_not] at hline
      exact hline
  have hhand : s.data.strLine = none := by
    have hfits := (h.ordered writer).1
    rw [hasleep] at hfits
    exact hfits.2
  obtain ⟨events, hdata, hhistory⟩ := h.refines
  rw [finished_of_none hhand] at hdata
  have htaken := CAsyncLog.taken_append_list localtime (CAsyncLog.init fileName pid rollSize) events
  rw [← hdata, hempty, ← hhistory, List.append_nil] at htaken
  exact htaken

/-- A step of a thread that neither enters the loop nor calls. -/
theorem inOrder_move (hplace : s'.place = (s.move t p).place) (hwait : p ≠ .entering)
    (hcall : ∀ op, p = .calling op → Permitted writer t s.data op) : InOrder writer s s' where
  wait u haway hentering := by
    rw [hplace] at hentering
    cases haway.symm.trans (place_of_move hentering hwait).2
  call u op haway hcalling := by
    rw [hplace] at hcalling
    by_cases hu : u = t
    · rw [hu, State.move_place_self] at hcalling
      rw [hu]
      exact hcall op hcalling
    · rw [State.move_place_of_ne s hu] at hcalling
      cases haway.symm.trans hcalling

/-- `uninit` comes and goes while nobody is asleep. -/
theorem uninit_unheard (ht : t ≠ writer) (haway : s.place t = .away)
    (hnobody : ∀ u, s.place u ≠ .asleep) :
    Relation.ReflTransGen (LogStep localtime writer) s
      { s with
        data := (monitor localtime).apply .uninit s.data, history := s.history ++ [.uninit] } := by
  let called := s.move t (.calling .uninit)
  let told : State T LogData LogCall :=
    { called.move t (.notifying .uninit .one) with
      data := (monitor localtime).apply .uninit s.data, history := s.history ++ [.uninit] }
  have hcall : LogStep localtime writer s called :=
    ⟨⟨_, .call .uninit haway⟩, inOrder_move rfl nofun fun op h => by
      cases h
      exact ht⟩
  have hchange : LogStep localtime writer called told :=
    ⟨⟨_, .change (Or.inr ⟨State.move_place_self .., rfl⟩)⟩,
      inOrder_move (s := called) rfl nofun nofun⟩
  have htold : ∀ u, told.place u ≠ .asleep := by
    intro u hu
    change (called.move t (.notifying .uninit .one)).place u = .asleep at hu
    exact hnobody u (place_of_move (place_of_move hu nofun).2 nofun).2
  have hwoken : Signal.Wakes .one told.place ∅ :=
    ⟨fun u hu => absurd hu (Finset.notMem_empty u), Or.inl htold⟩
  have hnotify : Step (monitor localtime) (· = writer) .progress told
      ((told.wake ∅).move t .away) :=
    @Step.notify T _ _ _ (monitor localtime) (· = writer) told t .uninit .one ∅
      (State.move_place_self called t _) hwoken
  rw [State.wake_empty] at hnotify
  have hsame : (told.move t .away).place = s.place := by
    funext u
    by_cases hu : u = t
    · rw [hu, State.move_place_self, haway]
    · rw [State.move_place_of_ne _ hu]
      change (called.move t _).place u = _
      rw [State.move_place_of_ne _ hu, State.move_place_of_ne _ hu]
  have hback : told.move t .away =
      { s with
        data := (monitor localtime).apply .uninit s.data, history := s.history ++ [.uninit] } := by
    rw [← hsame]
    rfl
  rw [← hback]
  exact ((Relation.ReflTransGen.single hcall).tail hchange).tail
    ⟨⟨_, hnotify⟩, inOrder_move rfl nofun nofun⟩

/-- An `uninit` while the writer stands between its test and its sleep leaves it asleep, with
no thread left that can go on. -/
theorem uninit_missed (hrefused : s.place writer = .refused)
    (haway : ∀ u, u ≠ writer → s.place u = .away) (ht : t ≠ writer) :
    ∃ s', Relation.ReflTransGen (LogStep localtime writer) s s' ∧
      AtRest (monitor localtime) (· = writer) s' ∧ s'.data.log.exit = true ∧
        s'.place writer = .asleep := by
  have hnobody : ∀ u, s.place u ≠ .asleep := by
    intro u hu
    by_cases hwriter : u = writer
    · rw [hwriter, hrefused] at hu
      cases hu
    · rw [haway u hwriter] at hu
      cases hu
  let told : State T LogData LogCall :=
    { s with
      data := (monitor localtime).apply .uninit s.data, history := s.history ++ [.uninit] }
  have hsleep : LogStep localtime writer told { told.move writer .asleep with owner := none } :=
    ⟨⟨_, .sleep hrefused⟩, inOrder_move (s := told) rfl nofun nofun⟩
  refine ⟨_, (uninit_unheard ht (haway t ht) hnobody).tail hsleep, atRest_of_places fun u => ?_,
    rfl, State.move_place_self ..⟩
  change (told.move writer .asleep).place u = .away ∨ (told.move writer .asleep).place u = .asleep
  by_cases hu : u = writer
  · rw [hu, State.move_place_self]
    exact Or.inr rfl
  · rw [State.move_place_of_ne _ hu]
    exact Or.inl (haway u hu)

/-- The file that the writer opens first, or none when the log has no file name. -/
theorem position_checkFile_init (localtime : Int → Tm) (fileName pid : Bytes) (rollSize now : Int) :
    ((CAsyncLog.init fileName pid rollSize).checkFile localtime now true).position =
      Position.wait := by
  rw [CAsyncLog.checkFile]
  split <;> rfl

/-- The writer, alone, comes to the point between its test and its sleep. -/
theorem exists_refused (localtime : Int → Tm) (writer : T) (fileName pid : Bytes)
    (rollSize : Int) :
    ∃ s : State T LogData LogCall, LogReachable localtime writer fileName pid rollSize s ∧
      s.place writer = .refused ∧ ∀ u, u ≠ writer → s.place u = .away := by
  let log := CAsyncLog.init fileName pid rollSize
  let looked : LogData := ⟨log.checkFile localtime 0 true, none⟩
  let called : State T LogData LogCall := (State.start ⟨log, none⟩).move writer
    (.calling (.checkFile 0 true))
  let changed : State T LogData LogCall :=
    { called.move writer (.notifying (.checkFile 0 true) .none) with
      data := looked, history := [.checkFile 0 true] }
  let entered : State T LogData LogCall := (changed.move writer .away).move writer .entering
  let testing : State T LogData LogCall :=
    { entered.move writer .testing with owner := some writer }
  have hcall : LogStep localtime writer (State.start ⟨log, none⟩) called :=
    ⟨⟨_, .call _ rfl⟩, inOrder_move rfl nofun fun op h => by
      cases h
      exact ⟨rfl, rfl, rfl⟩⟩
  have hchange : LogStep localtime writer called changed :=
    ⟨⟨_, .change (Or.inr ⟨State.move_place_self .., rfl⟩)⟩,
      inOrder_move (s := called) rfl nofun nofun⟩
  have hnotify : Step (monitor localtime) (· = writer) .progress changed
      ((changed.wake ∅).move writer .away) :=
    @Step.notify T _ _ _ (monitor localtime) (· = writer) changed writer (.checkFile 0 true) .none ∅
      (State.move_place_self called writer _) ⟨fun u hu => absurd hu (Finset.notMem_empty u), rfl⟩
  rw [State.wake_empty] at hnotify
  have hwait : LogStep localtime writer (changed.move writer .away) entered :=
    ⟨⟨_, .wait (State.move_place_self ..) rfl⟩,
      fun _ _ _ => ⟨position_checkFile_init localtime fileName pid rollSize 0, rfl⟩,
      fun t op haway hcalling => by
        rw [(place_of_move hcalling nofun).2] at haway
        cases haway⟩
  have hlock : LogStep localtime writer entered testing :=
    ⟨⟨_, .lockWait (State.move_place_self ..) rfl⟩, inOrder_move (s := entered) rfl nofun nofun⟩
  have hready : (monitor localtime).ready looked = false := by
    obtain ⟨hlist, hexit⟩ := listLinesToWrite_checkFile log localtime 0 true
    have hnone : (log.checkFile localtime 0 true).listLinesToWrite = [] := hlist
    have hruns : (log.checkFile localtime 0 true).exit = false := hexit
    simp only [monitor, looked, hnone, hruns, ne_eq, not_true, decide_false, Bool.or_self]
  have hrefuse : LogStep localtime writer testing (testing.move writer .refused) :=
    ⟨⟨_, .refuse (State.move_place_self entered writer _) hready⟩,
      inOrder_move (s := testing) rfl nofun nofun⟩
  refine ⟨_, (((((Relation.ReflTransGen.single hcall).tail hchange).tail
    ⟨⟨_, hnotify⟩, inOrder_move rfl nofun nofun⟩).tail hwait).tail hlock).tail hrefuse,
    State.move_place_self .., fun u hu => ?_⟩
  rw [State.move_place_of_ne _ hu]
  change (entered.move writer .testing).place u = .away
  rw [State.move_place_of_ne _ hu, State.move_place_of_ne _ hu, State.move_place_of_ne _ hu]
  change (called.move writer _).place u = .away
  rw [State.move_place_of_ne _ hu, State.move_place_of_ne _ hu]
  rfl

/-- If no `uninit` sets `m_bExit` between the writer's test and its sleep, the writer does not
sleep over it. But there is a run from the start in which one does, and after which the writer
is asleep and no thread can go on, so that the `join` of `uninit` waits for a line that may
never come; and every state with the writer between test and sleep leads there. -/
theorem uninit_heard_or_missed [Fintype T] (localtime : Int → Tm) (writer : T)
    (fileName pid : Bytes) (rollSize : Int) :
    (∀ s, Relation.ReflTransGen (fun a b => LogStep localtime writer a b ∧ Punctual exits a b)
        (.start ⟨CAsyncLog.init fileName pid rollSize, none⟩) s →
      AtRest (monitor localtime) (· = writer) s → s.data.log.exit = true →
        s.place writer ≠ .asleep) ∧
    (∀ t, t ≠ writer → ∃ s, LogReachable localtime writer fileName pid rollSize s ∧
      AtRest (monitor localtime) (· = writer) s ∧ s.data.log.exit = true ∧
        s.place writer = .asleep) ∧
    ∀ s t, LogReachable localtime writer fileName pid rollSize s → s.place writer = .refused →
      (∀ u, u ≠ writer → s.place u = .away) → t ≠ writer →
        ∃ s', Relation.ReflTransGen (LogStep localtime writer) s s' ∧
          AtRest (monitor localtime) (· = writer) s' ∧ s'.data.log.exit = true ∧
            s'.place writer = .asleep := by
  refine ⟨fun s hrun hrest hexit hasleep => ?_, fun t ht => ?_,
    fun s t _ hrefused haway ht => uninit_missed hrefused haway ht⟩
  · have hatt : Attentive (monitor localtime) (· = writer) exits s :=
      attentive_of_punctual (exit_wakes localtime writer) (fun _ _ h => ⟨h.1.1, h.2⟩) hrun
    rcases hatt.atRest hrest writer with haway | ⟨_, hfalse⟩
    · cases hasleep.symm.trans haway
    · exact absurd hexit (ne_true_of_eq_false hfalse)
  · obtain ⟨s, hreach, hrefused, haway⟩ :=
      exists_refused (T := T) localtime writer fileName pid rollSize
    exact (uninit_missed hrefused haway ht).imp fun _ hmissed =>
      ⟨hreach.trans hmissed.1, hmissed.2⟩

end Lemmas

end Order

/-- The writer of a log without a file, and a thread that ends it. -/
theorem uninit_missed_from_start : ∃ s : State Bool LogData LogCall,
    LogReachable CAsyncLog.firstMinute true [] [] 100 s ∧
      AtRest (LogData.monitor CAsyncLog.firstMinute) (· = true) s ∧ s.data.log.exit = true ∧
        s.place true = .asleep :=
  (uninit_heard_or_missed CAsyncLog.firstMinute true [] [] 100).2.1 false Bool.false_ne_true

/-- A caller that has put its line into the list while the writer is still at its file. -/
theorem write_thread_refines_line : ∃ s : State Bool LogData LogCall,
    s.history = [.output [65]] ∧ ∃ events : List Event,
      s.data.finished =
          events.foldl (CAsyncLog.step CAsyncLog.firstMinute) (CAsyncLog.init [97] [] 100) ∧
        s.history.filterMap callLine = events.filterMap CAsyncLog.outputLine := by
  have hcall : LogReachable CAsyncLog.firstMinute true [97] [] 100
      ((State.start ⟨CAsyncLog.init [97] [] 100, none⟩).move false
        (.calling (.output [65])) : State Bool LogData LogCall) :=
    .single ⟨⟨_, .call _ rfl⟩, inOrder_move rfl nofun fun op h => by
      cases h
      exact Bool.false_ne_true⟩
  have hlock := hcall.tail ⟨⟨_, .lockCall (t := false) rfl rfl rfl⟩,
    inOrder_move (t := false) (p := .changing (.output [65])) rfl nofun nofun⟩
  have hchange := hlock.tail ⟨⟨_, .change (t := false) (Or.inl rfl)⟩,
    inOrder_move (t := false) (p := .notifying (.output [65]) .one) rfl nofun nofun⟩
  exact ⟨_, rfl, (write_thread_refines hchange).1⟩

end ChatRoom.Base
