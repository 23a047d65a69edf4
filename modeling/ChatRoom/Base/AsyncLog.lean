import ChatRoom.Core.Decimal

/-!
# CAsyncLog

The log of `base/AsyncLog.cpp`: callers of `output` append lines to a list, and one thread
takes them off and writes them to a file. It starts a new file at the top of its loop when
it has none or the current one has reached the roll size; the name of a file is made of the
second in which it is created. `fwrite` writes all that it is given.
-/

namespace ChatRoom.Base

open ChatRoom.Core

/-! ## Names -/

/-- `struct tm`, as far as it is printed. -/
structure Tm where
  year : Nat
  mon : Nat
  mday : Nat
  hour : Nat
  min : Nat
  sec : Nat

/-- A number with two digits. -/
def twoDigits (n : Nat) : Bytes := if n < 10 then 48 :: Decimal.digits n else Decimal.digits n

/-- `strftime` with `"%Y%m%d%H%M%S"`. -/
def strftime (time : Tm) : Bytes :=
  Decimal.digits (1900 + time.year) ++ twoDigits (time.mon + 1) ++ twoDigits time.mday ++
    twoDigits time.hour ++ twoDigits time.min ++ twoDigits time.sec

/-! ## Files -/

/-- A file of the directory that the log is written to. -/
structure LogFile where
  name : Bytes
  content : Bytes
  deriving DecidableEq

/-- Change the content of the file with a name. -/
def updateFile (name : Bytes) (change : Bytes → Bytes) (files : List LogFile) : List LogFile :=
  files.map fun f => if f.name = name then ⟨f.name, change f.content⟩ else f

/-- `fopen` with `"w+"`: a file that exists is emptied. Files are in the order of creation. -/
def openTruncated (name : Bytes) (files : List LogFile) : List LogFile :=
  if name ∈ files.map LogFile.name then updateFile name (fun _ => []) files
  else files ++ [⟨name, []⟩]

/-! ## writeToFile -/

/-- A `size_t` converted to `int`. -/
def toInt (n : Nat) : Int := (BitVec.ofNat 32 n).toInt

/-- The loop of `writeToFile`: its result, and the bytes that are written. -/
def writeLoop : Nat → Bytes → Bool × Bytes
  | 0, _ => (false, [])
  | fuel + 1, strLocal =>
    let ret := toInt strLocal.length
    if ret ≤ 0 then (false, strLocal)
    else
      let rest := strLocal.drop ret.toNat
      if rest = [] then (true, strLocal)
      else ((writeLoop fuel rest).1, strLocal ++ (writeLoop fuel rest).2)

/-- Every turn of the loop erases a byte. -/
def writtenBytes (data : Bytes) : Bool × Bytes := writeLoop (data.length + 1) data

/-! ## The log -/

/-- Where the thread is: at the top of its loop, at the list of lines, or back from
`writeThreadProc`. -/
inductive Position
  | top
  | wait
  | done
  deriving DecidableEq

/-- The static members of `CAsyncLog`, and how far the write thread has come. -/
structure CAsyncLog where
  strFileName : Bytes
  strFileNamePID : Bytes
  fileRollSize : Int
  currentWrittenSize : Int
  hLogFile : Option Bytes
  listLinesToWrite : List Bytes
  exit : Bool
  position : Position
  files : List LogFile
  taken : List Bytes

/-- What may happen next: a line is output, `uninit` is called, or the thread takes its turn,
at a time and with an `fopen` that works or not. -/
inductive Event
  | output (strLine : Bytes)
  | uninit
  | turn (now : Int) (fopen : Bool)

namespace CAsyncLog

/-- The log after `init`, before the thread runs. -/
def init (fileName pid : Bytes) (rollSize : Int) : CAsyncLog :=
  ⟨fileName, pid, rollSize, 0, none, [], false, Position.top, [], []⟩

/-- `strNewFileName`. -/
def newFileName (s : CAsyncLog) (localtime : Int → Tm) (now : Int) : Bytes :=
  s.strFileName ++ [46] ++ strftime (localtime now) ++ [46] ++ s.strFileNamePID ++
    [46, 108, 111, 103]

/-- The thread is to start a file. -/
def NeedsFile (s : CAsyncLog) : Prop :=
  s.strFileName ≠ [] ∧ (s.hLogFile = none ∨ s.currentWrittenSize ≥ s.fileRollSize)

instance (s : CAsyncLog) : Decidable s.NeedsFile := inferInstanceAs (Decidable (_ ∧ _))

/-- `createNewFile`, which closes the file that is open. -/
def createNewFile (s : CAsyncLog) (name : Bytes) (fopen : Bool) : Bool × CAsyncLog :=
  if fopen then (true, { s with hLogFile := some name, files := openTruncated name s.files })
  else (false, { s with hLogFile := none })

/-- `writeToFile` on the file that is open. -/
def writeToFile (s : CAsyncLog) (data : Bytes) : Bool × CAsyncLog :=
  ((writtenBytes data).1,
    { s with files := s.hLogFile.elim s.files fun name =>
        updateFile name (· ++ (writtenBytes data).2) s.files })

/-- The top of the loop of `writeThreadProc`. -/
def checkFile (s : CAsyncLog) (localtime : Int → Tm) (now : Int) (fopen : Bool) : CAsyncLog :=
  if s.NeedsFile then
    let created := { s with currentWrittenSize := 0 }.createNewFile
      (s.newFileName localtime now) fopen
    { created.2 with position := if created.1 then Position.wait else Position.done }
  else { s with position := Position.wait }

/-- The rest of the loop, with a line at the front of the list. -/
def writeLine (s : CAsyncLog) (strLine : Bytes) (rest : List Bytes) : CAsyncLog :=
  let s := { s with listLinesToWrite := rest, taken := s.taken ++ [strLine] }
  if s.strFileName = [] then { s with position := Position.top }
  else
    let written := s.writeToFile strLine
    if written.1 then
      { written.2 with
        currentWrittenSize := s.currentWrittenSize + strLine.length, position := Position.top }
    else { written.2 with position := Position.done }

/-- What the thread does up to its next stop. -/
def writeThreadProc (s : CAsyncLog) (localtime : Int → Tm) (now : Int) (fopen : Bool) :
    CAsyncLog :=
  match s.position with
  | .top => s.checkFile localtime now fopen
  | .wait =>
    match s.listLinesToWrite with
    | [] => if s.exit then { s with position := Position.done } else s
    | strLine :: rest => s.writeLine strLine rest
  | .done => s

/-- One event of the log: a line, `uninit`, or a turn of the write thread. -/
def step (localtime : Int → Tm) (s : CAsyncLog) : Event → CAsyncLog
  | .output strLine => { s with listLinesToWrite := s.listLinesToWrite ++ [strLine] }
  | .uninit => { s with exit := true }
  | .turn now fopen => s.writeThreadProc localtime now fopen

end CAsyncLog

/-! ## What is written of a line -/

/-- `fwrite`'s result is positive as an `int` for less than 4 GiB only. -/
def WrittenOnce (data : Bytes) : Prop := data.length < 2 ^ 32 ∨ toInt data.length ≤ 0

private theorem toInt_eq (n : Nat) :
    toInt n = if n % 2 ^ 32 < 2 ^ 31 then (n % 2 ^ 32 : Int) else (n % 2 ^ 32 : Int) - 2 ^ 32 := by
  rw [toInt, BitVec.toInt_eq_toNat_cond, BitVec.toNat_ofNat]
  split <;> split <;> omega

private theorem toInt_of_pos {n : Nat} (h : 0 < toInt n) : (toInt n).toNat = n % 2 ^ 32 := by
  rw [toInt_eq] at h ⊢
  split at h <;> omega

/-- A line that is written once is written as it is. -/
theorem writtenBytes_once {data : Bytes} (h : WrittenOnce data) : (writtenBytes data).2 = data := by
  rw [writtenBytes, writeLoop]
  by_cases hret : toInt data.length ≤ 0
  · simp only [if_pos hret]
  · have hlen := h.resolve_right hret
    have hrest : data.drop (toInt data.length).toNat = [] := by
      rw [toInt_of_pos (Int.not_le.mp hret), Nat.mod_eq_of_lt hlen, List.drop_length]
    simp only [if_neg hret, hrest, if_true]

/-- Of a longer line the bytes from a multiple of 4 GiB before its end on are written again. -/
theorem length_writtenBytes_twice {data : Bytes} (h : ¬ WrittenOnce data) :
    data.length < (writtenBytes data).2.length := by
  rw [WrittenOnce, not_or, Nat.not_lt] at h
  obtain ⟨hlen, hret⟩ := h
  have hleft : (data.drop (toInt data.length).toNat).length =
      data.length - data.length % 2 ^ 32 := by
    rw [List.length_drop, toInt_of_pos (Int.not_le.mp hret)]
  rw [writtenBytes, writeLoop]
  simp only [if_neg hret]
  generalize data.drop (toInt data.length).toNat = rest at hleft
  have hrest : rest ≠ [] := by
    apply List.length_pos_iff.mp
    omega
  have hzero : toInt rest.length ≤ 0 := by
    rw [toInt_eq]
    split <;> omega
  have hagain : ∀ fuel, writeLoop (fuel + 1) rest = (false, rest) := by
    intro fuel
    rw [writeLoop]
    simp only [if_pos hzero]
  obtain ⟨fuel, hfuel⟩ := Nat.exists_eq_succ_of_ne_zero (show data.length ≠ 0 by omega)
  rw [if_neg hrest, List.length_append, hfuel, hagain, ← hfuel]
  exact Nat.lt_add_of_pos_right (List.length_pos_iff.mpr hrest)

end ChatRoom.Base
