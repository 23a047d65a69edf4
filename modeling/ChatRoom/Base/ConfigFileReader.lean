import Mathlib.Data.List.DropRight
import ChatRoom.Core.Lines
import ChatRoom.Core.SortedMap
import ChatRoom.Core.Traced

/-!
# CConfigFileReader

The configuration file of `base/ConfigFileReader.cpp`. `loadFile` reads it with `fgets`
in pieces of at most 255 bytes and parses each in the array it was read into; the index
expressions on that array are recorded as offsets, since some of them may lie outside.
`setConfigValue` changes the map and writes all of it to the file.
-/

namespace ChatRoom.Base

open ChatRoom.Core

/-- `std::string` compares as `memcmp` does. -/
instance : IsStrictTotalOrder Bytes (· < ·) where
  trichotomous := fun _ _ h h' => List.le_antisymm (List.not_lt.mp h') (List.not_lt.mp h)
  irrefl := List.lt_irrefl
  trans := fun _ _ _ => List.lt_trans

/-- `m_config_map`. -/
abbrev ConfigMap := SortedMap Bytes Bytes

/-- `fgets` into an array with room for `n` bytes and a terminator: what it reads, and what
is left of the file. -/
def fgets : Nat → Bytes → Bytes × Bytes
  | 0, content => ([], content)
  | _ + 1, [] => ([], [])
  | n + 1, c :: rest =>
    if c = 10 then ([c], rest) else (c :: (fgets n rest).1, (fgets n rest).2)

/-- What up to `fuel` calls of `fgets(buf, 256, fp)` read before the end of the file. -/
def readPieces : Nat → Bytes → List Bytes
  | 0, _ => []
  | _ + 1, [] => []
  | fuel + 1, c :: rest =>
    (fgets 255 (c :: rest)).1 :: readPieces fuel (fgets 255 (c :: rest)).2

/-- Each call reads at least one byte, so there are never more calls than bytes. -/
def pieces (content : Bytes) : List Bytes := readPieces content.length content

/-- The characters that `trimSpace` drops. -/
def isBlank (c : UInt8) : Bool := c = 32 ∨ c = 9 ∨ c = 13

/-- Look at bytes of the array. -/
def touch (offsets : List Int) : Traced Int Unit := ⟨(), offsets⟩

/-- The loop of `trimSpace` that steps back over blanks, from `end_pos` one below its argument
on. In front of the string it has left it. -/
def trimEnd (offset : Nat) (name : Bytes) : Nat → Traced Int Nat
  | 0 => (touch [(offset : Int) - 1]).map fun _ => 0
  | k + 1 =>
    (touch [(offset : Int) + k]).bind fun _ =>
      if isBlank (name.getD k 0) then trimEnd offset name k else Traced.pure (k + 1)

/-- `trimSpace` on the string at an offset of the array; `none` is the null pointer. -/
def trimSpace (offset : Nat) (name : Bytes) : Traced Int (Option Bytes) :=
  let start := (name.takeWhile isBlank).length
  (touch ((List.range (start + 1)).map fun (i : Nat) => (offset : Int) + i)).bind fun _ =>
    if name.length - start = 0 then Traced.pure none
    else
      (trimEnd offset name name.length).map fun (stop : Nat) =>
        if (stop : Int) - start ≤ 0 then none else some ((name.take stop).drop start)

/-- `parseLine` on the string in the array: the pair it inserts, if any. -/
def parseLine (line : Bytes) : Traced Int (Option (Bytes × Bytes)) :=
  if 61 ∈ line then
    let p := (line.takeWhile (· ≠ 61)).length
    (trimSpace 0 (line.take p)).bind fun key =>
      (trimSpace (p + 1) (line.drop (p + 1))).map fun value =>
        key.bind fun key => value.map fun value => (key, value)
  else Traced.pure none

/-- The body of the loop of `loadFile`: the newline at the end goes, then the comment. A piece
that starts with a NUL is the empty string, and `buf[len - 1]` stands before the array. -/
def loadPiece (piece : Bytes) : Traced Int (Option (Bytes × Bytes)) :=
  let buf := cstr piece
  (touch [(buf.length : Int) - 1]).bind fun _ =>
    let buf := if buf.getLast? = some 10 then buf.dropLast else buf
    let buf := buf.takeWhile (· ≠ 35)
    if buf = [] then Traced.pure none else parseLine buf

/-- The loop of `loadFile` over what `fgets` returns; a later entry of a key replaces an earlier
one. -/
def loadPieces : List Bytes → ConfigMap → Traced Int ConfigMap
  | [], m => Traced.pure m
  | piece :: rest, m =>
    (loadPiece piece).bind fun entry =>
      loadPieces rest (m.insertAll entry.toList)

/-- `loadFile` on a file that can be opened. -/
def loadFile (content : Bytes) : Traced Int ConfigMap := loadPieces (pieces content) SortedMap.empty

/-- A reader of a configuration file, with `m_load_ok` and the map. -/
structure CConfigFileReader where
  loadOk : Bool
  configMap : ConfigMap

/-- What the library calls of `writeFile` do: whether `fopen` and the `fwrite` of each turn
succeed, and how many of the written bytes are in the file after `fclose`. That is all of them
when its flush succeeds; when it does not, `writeFile` is not told, for it drops the result. -/
structure WriteCalls where
  fopen : Bool
  fwrite : Nat → Bool
  fclose : Option Nat

/-- What of the written bytes is in the file once it has been closed. -/
def WriteCalls.flushed (calls : WriteCalls) (written : Bytes) : Bytes :=
  match calls.fclose with
  | none => written
  | some n => written.take n

namespace CConfigFileReader

/-- The constructor, on an existing file. -/
def new (content : Bytes) : CConfigFileReader := ⟨true, (loadFile content).value⟩

/-- The line of a pair in `szPaire`, which has room for 127 bytes. -/
def szPaire (e : Bytes × Bytes) : Bytes := (cstr e.1 ++ [61] ++ cstr e.2 ++ [10]).take 127

/-- The loop of `writeFile` from its `i`-th turn on: the result and what was handed to `fwrite`. -/
def writePairs (calls : WriteCalls) : Nat → List (Bytes × Bytes) → Int × Bytes
  | _, [] => (0, [])
  | i, e :: rest =>
    if calls.fwrite i ∧ szPaire e ≠ [] then
      ((writePairs calls (i + 1) rest).1, szPaire e ++ (writePairs calls (i + 1) rest).2)
    else (-1, szPaire e)

/-- `writeFile`: the result and the content of the file afterwards. -/
def writeFile (r : CConfigFileReader) (calls : WriteCalls) (content : Bytes) : Int × Bytes :=
  if calls.fopen then
    let written := writePairs calls 0 r.configMap.entries
    (written.1, calls.flushed written.2)
  else (-1, content)

/-- `setConfigValue`: the result, the reader and the content of the file afterwards. -/
def setConfigValue (r : CConfigFileReader) (calls : WriteCalls) (content name value : Bytes) :
    Int × CConfigFileReader × Bytes :=
  if r.loadOk then
    let m := if (r.configMap.get? name).isSome then r.configMap.assign name value
      else r.configMap.insert name value
    let r := { r with configMap := m }
    ((r.writeFile calls content).1, r, (r.writeFile calls content).2)
  else (-1, r, content)

end CConfigFileReader

end ChatRoom.Base
