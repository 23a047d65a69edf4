import ChatRoom.Base.AsyncLog
import ChatRoom.Core.CArray

/-!
# outputBinary

The hexadecimal dump of `base/AsyncLog.cpp`. `outputBinary` takes the buffer in pieces of
512 bytes, and `formLog` writes the lines of one piece into an array of zeros: the line
numbers with `strcat`, which looks for the end of the text, everything else at a length that
it keeps. `none` is a write outside of an array, or a loop that is still running. The line
counter is an `int` that is printed as an `unsigned` and wraps around; below 2^36 bytes only
its `++` behind the last line can do so, and nothing reads it after that.
-/

namespace ChatRoom.Base

open ChatRoom.Core

/-- `szchar`, the sixteen digits. -/
def szchar : Bytes :=
  [48, 49, 50, 51, 52, 53, 54, 55, 56, 57, 97, 98, 99, 100, 101, 102]

/-- `PRINTSIZE`. -/
def printSize : Nat := 512

/-- `sprintf` with `"%06u"`. -/
def ullto4Str (n : BitVec 32) : Bytes :=
  List.replicate (6 - (Decimal.digits n.toNat).length) 48 ++ Decimal.digits n.toNat

/-- What `formLog` works on: the line counter, the array, and its local variables. -/
structure FormLog where
  index : BitVec 32
  szbuf : Bytes
  len : Nat
  lsize : Nat
  headlen : Nat

namespace FormLog

/-- `szbuf[len++] = c`. -/
def put (s : FormLog) (c : UInt8) : Option FormLog := do
  let szbuf ← store s.szbuf s.len c
  return { s with szbuf := szbuf, len := s.len + 1 }

/-- The number of a line, which is made in `szhead`. -/
def putHead (s : FormLog) : Option FormLog := do
  let szhead ← strncpy (List.replicate 65 0) (ullto4Str s.index) 64
  let headlen := strlen szhead
  let szhead ← store szhead headlen 32
  let szbuf ← strcat s.szbuf szhead
  return ⟨s.index + 1, szbuf, s.len + (headlen + 1), s.lsize, headlen + 1⟩

/-- Every 32 bytes start a line, behind the end of the one before. -/
def startRow (s : FormLog) : Option FormLog :=
  if s.lsize % 32 = 0 then (if s.headlen ≠ 0 then s.put 10 else some s).bind putHead else some s

/-- A blank in front of every 16 bytes. -/
def putBlank (s : FormLog) : Option FormLog :=
  if s.lsize % 16 = 0 ∧ s.headlen ≠ 0 then s.put 32 else some s

/-- One turn of the loop. -/
def turn (buffer : Bytes) (s : FormLog) : Option FormLog := do
  let s ← s.startRow
  let s ← s.putBlank
  let c ← buffer[s.lsize]?
  let s ← s.put (szchar.getD ((c >>> 4) &&& 0xf).toNat 0)
  let s ← s.put (szchar.getD (c &&& 0xf).toNat 0)
  return { s with lsize := s.lsize + 1 }

/-- The loop, for at most `fuel` turns. -/
def loop (sizeBuf : Nat) (buffer : Bytes) (size : Nat) : Nat → FormLog → Option FormLog
  | 0, _ => none
  | fuel + 1, s =>
    if s.lsize < size ∧ s.len + 10 < sizeBuf then
      (s.turn buffer).bind (loop sizeBuf buffer size fuel)
    else some s

/-- The loop of a call of `formLog`: each turn takes a byte. -/
def run (index : BitVec 32) (szbuf buffer : Bytes) (size : Nat) : Option FormLog :=
  loop szbuf.length buffer size (size + 1) ⟨index, szbuf, 0, 0, 0⟩

end FormLog

/-- `formLog`: the line counter and the array afterwards. -/
def formLog (index : BitVec 32) (szbuf buffer : Bytes) (size : Nat) :
    Option (BitVec 32 × Bytes) := do
  let s ← FormLog.run index szbuf buffer size
  let s ← s.put 10
  let s ← s.put 0
  return (s.index, s.szbuf)

/-- The local variables of `outputBinary`. -/
structure Dump where
  index : BitVec 32
  lsize : Nat
  os : Bytes

namespace Dump

/-- The line in front of the dump: `"address[…] size[…] \n"`. -/
def addressLine (address : BitVec 64) (size : Nat) : Bytes :=
  [97, 100, 100, 114, 101, 115, 115, 91] ++ Decimal.encode address.toInt ++
    [93, 32, 115, 105, 122, 101, 91] ++ Decimal.digits size ++ [93, 32, 10]

/-- Before the first piece: the text begins with the address and the size. -/
def start (address : BitVec 64) (size : Nat) : Dump := ⟨0, 0, addressLine address size⟩

/-- `lprintbufsize`. -/
def printBufSize (buffer : Bytes) (s : Dump) : Nat :=
  if buffer.length - s.lsize > printSize then printSize else buffer.length - s.lsize

/-- `szbuf` after `memset`. -/
def szbuf : Bytes := List.replicate (printSize * 3 + 8) 0

/-- One turn of the loop, when there is something left. -/
def turn (buffer : Bytes) (s : Dump) : Option Dump := do
  let out ← formLog s.index szbuf (buffer.drop s.lsize) (s.printBufSize buffer)
  return ⟨out.1, s.lsize + s.printBufSize buffer, s.os ++ cstr out.2⟩

/-- The loop, for at most `fuel` turns. -/
def loop (buffer : Bytes) : Nat → Dump → Option Dump
  | 0, _ => none
  | fuel + 1, s =>
    if buffer.length > s.lsize then (s.turn buffer).bind (loop buffer fuel) else some s

end Dump

/-- `outputBinary`; the buffer is at `address`. -/
def CAsyncLog.outputBinary (log : CAsyncLog) (address : BitVec 64) (buffer : Bytes) :
    Option CAsyncLog := do
  let s ← Dump.loop buffer (buffer.length + 1) (Dump.start address buffer.length)
  return { log with listLinesToWrite := log.listLinesToWrite ++ [s.os] }

/-! ## Hexadecimal -/

/-- A byte as two digits. -/
def hexByte (c : UInt8) : Bytes := [hexChar (c.toNat / 16), hexChar (c.toNat % 16)]

/-- Two digits for each byte. -/
def hexText (bytes : Bytes) : Bytes := bytes.flatMap hexByte

private theorem szchar_eq (c : UInt8) :
    [szchar.getD ((c >>> 4) &&& 0xf).toNat 0, szchar.getD (c &&& 0xf).toNat 0] = hexByte c := by
  have hall : ∀ n : Fin 256,
      [szchar.getD ((UInt8.ofNat n.val >>> 4) &&& 0xf).toNat 0,
        szchar.getD (UInt8.ofNat n.val &&& 0xf).toNat 0] = hexByte (UInt8.ofNat n.val) := by
    decide +kernel
  have h := hall ⟨c.toNat, c.toNat_lt⟩
  simpa only [UInt8.ofNat_toNat] using h

/-- A digit of either kind. -/
theorem hexChar_range {d : Nat} (h : d < 16) :
    48 ≤ (hexChar d).toNat ∧ (hexChar d).toNat ≤ 102 := by
  rw [hexChar, UInt8.toNat_ofNat']
  split <;> omega

/-- The digits of a byte lie between `0` and `f`. -/
theorem range_of_mem_hexByte {c d : UInt8} (h : d ∈ hexByte c) : 48 ≤ d.toNat ∧ d.toNat ≤ 102 := by
  have hc := c.toNat_lt
  rcases List.mem_cons.mp h with rfl | h
  · exact hexChar_range (by omega)
  · rw [List.mem_singleton.mp h]
    exact hexChar_range (by omega)

/-! ## Line numbers -/

/-- A line number consists of digits. -/
theorem range_of_mem_ullto4Str {n : BitVec 32} {c : UInt8} (h : c ∈ ullto4Str n) :
    48 ≤ c.toNat ∧ c.toNat ≤ 57 := by
  rcases List.mem_append.mp h with h | h
  · rw [(List.mem_replicate.mp h).2]
    decide
  · have hdigit := Decimal.isDigit_of_mem_digits c h
    rw [Decimal.isDigit, decide_eq_true_eq] at hdigit
    exact hdigit

private theorem length_ullto4Str_le (n : BitVec 32) : (ullto4Str n).length ≤ 10 := by
  have hlen := @Decimal.length_digits_le n.toNat 10 (by decide)
    (Nat.lt_of_lt_of_le n.isLt (by decide))
  rw [ullto4Str, List.length_append, List.length_replicate]
  omega

private theorem zero_not_mem_ullto4Str (n : BitVec 32) : 0 ∉ ullto4Str n := by
  intro h
  exact absurd (range_of_mem_ullto4Str h).1 (by decide)

/-- Zeros in front of the digits do not change the number. -/
theorem value_replicate_zero (k : Nat) (ds : Bytes) :
    Decimal.value (List.replicate k 48 ++ ds) = Decimal.value ds := by
  induction k with
  | zero => rfl
  | succ k ih => exact ih

/-- The line number can be read back from its text. -/
theorem value_ullto4Str (n : BitVec 32) : Decimal.value (ullto4Str n) = n.toNat := by
  rw [ullto4Str, value_replicate_zero, Decimal.value_digits]

/-! ## The text of a piece -/

/-- What starts the row at a place of a piece: the end of the line above, and a number. -/
def rowStart (k p : Nat) : Bytes :=
  if p % 32 = 0 then
    (if p ≠ 0 then [10] else []) ++ (ullto4Str (BitVec.ofNat 32 (k + p / 32)) ++ [32])
  else []

/-- What stands before the byte at a place of a piece; each half of a row has a blank. -/
def before (k p : Nat) : Bytes := rowStart k p ++ if p % 16 = 0 then [32] else []

/-- The text of the bytes from a place of a piece on, whose first line has the number `k`. -/
def shown (k : Nat) : Nat → Bytes → Bytes
  | _, [] => []
  | p, c :: rest => before k p ++ hexByte c ++ shown k (p + 1) rest

private theorem zero_not_mem_before (k p : Nat) : 0 ∉ before k p := by
  have hnumber := zero_not_mem_ullto4Str (BitVec.ofNat 32 (k + p / 32))
  rw [before, rowStart]
  split <;> split <;> try split
  all_goals
    simp only [List.mem_append, List.mem_singleton, List.not_mem_nil, hnumber, or_false, false_or]
    decide

private theorem zero_not_mem_shown (k p : Nat) (bytes : Bytes) : 0 ∉ shown k p bytes := by
  induction bytes generalizing p with
  | nil => exact List.not_mem_nil
  | cons c rest ih =>
    rw [shown, List.mem_append, List.mem_append]
    rintro ((h | h) | h)
    · exact zero_not_mem_before k p h
    · exact absurd (range_of_mem_hexByte h).1 (by decide)
    · exact ih (p + 1) h

private theorem length_before_le (k p : Nat) :
    (before k p).length ≤ ((p + 16) / 16 - (p + 15) / 16) + 12 * ((p + 32) / 32 - (p + 31) / 32) := by
  have hnumber := length_ullto4Str_le (BitVec.ofNat 32 (k + p / 32))
  rw [before, rowStart]
  split <;> split <;> try split
  all_goals
    simp only [List.length_append, List.length_singleton, List.length_nil]
    omega

/-- Two digits a byte, a blank for each half of a row and twelve bytes more for each row. -/
theorem length_shown_le (k p : Nat) (bytes : Bytes) :
    (shown k p bytes).length ≤ 2 * bytes.length +
      ((p + bytes.length + 15) / 16 - (p + 15) / 16) +
        12 * ((p + bytes.length + 31) / 32 - (p + 31) / 32) := by
  induction bytes generalizing p with
  | nil => exact Nat.zero_le _
  | cons c rest ih =>
    have hrest := ih (p + 1)
    have hbefore := length_before_le k p
    have hbyte : (hexByte c).length = 2 := rfl
    rw [shown, List.length_append, List.length_append, List.length_cons]
    omega

/-! ## The loop of formLog -/

namespace FormLog

/-- The array holds a text in front of zeros, and `len` is its length. -/
def withText (n : Nat) (index : BitVec 32) (t : Bytes) (lsize headlen : Nat) : FormLog :=
  ⟨index, resize t n 0, t.length, lsize, headlen⟩

variable {n : Nat} {index : BitVec 32} {t : Bytes} {lsize headlen : Nat}

/-- The array with a text has the given position in the piece. -/
@[simp] theorem withText_lsize : (withText n index t lsize headlen).lsize = lsize := rfl

/-- The array with a text has the given length of the line. -/
@[simp] theorem withText_headlen : (withText n index t lsize headlen).headlen = headlen := rfl

private theorem put_withText (h : t.length < n) (c : UInt8) :
    (withText n index t lsize headlen).put c = some (withText n index (t ++ [c]) lsize headlen) := by
  have hlen : (t ++ [c]).length = t.length + 1 := List.length_append
  simp only [put, withText, store_resize h, hlen]
  rfl

/-- `strcat` finds the end of the text where `len` says it is. -/
theorem putHead_withText (ht : 0 ∉ t) (h : t.length + (ullto4Str index).length + 1 < n) :
    (withText n index t lsize headlen).putHead =
      some (withText n (index + 1) (t ++ (ullto4Str index ++ [32])) lsize
        ((ullto4Str index).length + 1)) := by
  have hzero := zero_not_mem_ullto4Str index
  have hten := length_ullto4Str_le index
  have hblank : 0 ∉ ullto4Str index ++ [32] := zero_not_mem_concat hzero (by decide)
  have hhead : (ullto4Str index ++ [32]).length = (ullto4Str index).length + 1 := List.length_append
  have hcopy := @strncpy_replicate (ullto4Str index) 64 65 hzero (by omega) (by decide)
  have hlen := @strlen_resize (ullto4Str index) 65 hzero (by omega)
  have hstore := @store_resize (ullto4Str index) 65 (by omega) 32
  have hsrc := @cstr_resize (ullto4Str index ++ [32]) 65 hblank (by omega)
  have hcat := @strcat_resize t _ n _ ht hsrc (by omega)
  simp only [putHead, withText, hcopy, Option.bind_eq_bind, Option.bind_some, hlen, hstore, hcat,
    @List.length_append _ t, hhead]
  rfl

private theorem startRow_withText {k : Nat} (ht : 0 ∉ t) (hhead : headlen ≠ 0 ↔ lsize ≠ 0)
    (h : t.length + (rowStart k lsize).length < n) :
    ∃ headlen', headlen' ≠ 0 ∧
      (withText n (BitVec.ofNat 32 (k + (lsize + 31) / 32)) t lsize headlen).startRow =
        some (withText n (BitVec.ofNat 32 (k + (lsize + 32) / 32)) (t ++ rowStart k lsize) lsize
          headlen') := by
  rw [rowStart] at h ⊢
  simp only [startRow, withText_lsize, withText_headlen, hhead]
  by_cases hrow : lsize % 32 = 0
  · have hnow : (lsize + 31) / 32 = lsize / 32 := by omega
    have hnext : BitVec.ofNat 32 (k + (lsize + 32) / 32) = BitVec.ofNat 32 (k + lsize / 32) + 1 := by
      rw [show k + (lsize + 32) / 32 = k + lsize / 32 + 1 by omega, BitVec.ofNat_add]
      rfl
    refine ⟨(ullto4Str (BitVec.ofNat 32 (k + lsize / 32))).length + 1, Nat.succ_ne_zero _, ?_⟩
    rw [if_pos hrow] at h
    rw [if_pos hrow, if_pos hrow, hnow, hnext]
    by_cases hfirst : lsize ≠ 0
    · rw [if_pos hfirst, List.length_append, List.length_append, List.length_singleton,
        List.length_singleton] at h
      have hnewline : 0 ∉ t ++ [10] := zero_not_mem_concat ht (by decide)
      rw [if_pos hfirst, if_pos hfirst, put_withText (by omega), Option.bind_some,
        putHead_withText hnewline (by rw [List.length_append, List.length_singleton]; omega),
        List.append_assoc]
    · rw [if_neg hfirst, List.nil_append, List.length_append, List.length_singleton] at h
      rw [if_neg hfirst, if_neg hfirst, Option.bind_some, putHead_withText ht (by omega),
        List.nil_append]
  · have hsame : (lsize + 31) / 32 = (lsize + 32) / 32 := by omega
    have hset : headlen ≠ 0 := hhead.mpr (by omega)
    refine ⟨headlen, hset, ?_⟩
    rw [if_neg hrow, if_neg hrow, List.append_nil, hsame]

private theorem putBlank_withText (hhead : headlen ≠ 0) (h : t.length + 1 < n) :
    (withText n index t lsize headlen).putBlank =
      some (withText n index (t ++ if lsize % 16 = 0 then [32] else []) lsize headlen) := by
  simp only [putBlank, withText_lsize, withText_headlen, hhead, and_true, ne_eq,
    not_false_eq_true]
  split
  · exact put_withText (by omega) 32
  · rw [List.append_nil]

/-- A turn adds the text of one byte. -/
theorem turn_withText {buffer : Bytes} {k : Nat} (hp : lsize < buffer.length) (ht : 0 ∉ t)
    (hhead : headlen ≠ 0 ↔ lsize ≠ 0)
    (h : t.length + (before k lsize ++ hexByte buffer[lsize]).length < n) :
    ∃ headlen', headlen' ≠ 0 ∧
      (withText n (BitVec.ofNat 32 (k + (lsize + 31) / 32)) t lsize headlen).turn buffer =
        some (withText n (BitVec.ofNat 32 (k + (lsize + 32) / 32))
          (t ++ (before k lsize ++ hexByte buffer[lsize])) (lsize + 1) headlen') := by
  have hbyte : (hexByte buffer[lsize]).length = 2 := rfl
  rw [before, List.length_append, List.length_append] at h
  obtain ⟨headlen', hset, hrow⟩ := @startRow_withText n t lsize headlen k ht hhead (by omega)
  refine ⟨headlen', hset, ?_⟩
  have hroom : (t ++ rowStart k lsize).length + 1 < n := by
    rw [List.length_append]
    omega
  have hlen : (t ++ before k lsize).length + 2 < n := by
    rw [before, List.length_append, List.length_append]
    omega
  rw [turn, hrow]
  simp only [Option.bind_eq_bind, Option.bind_some, putBlank_withText hset hroom]
  rw [List.append_assoc, ← before]
  simp only [withText_lsize, List.getElem?_eq_getElem hp, Option.bind_some]
  rw [put_withText (by omega), Option.bind_some,
    put_withText (by rw [List.length_append, List.length_singleton]; omega), Option.bind_some,
    ← szchar_eq]
  simp only [List.append_assoc, List.singleton_append]
  rfl

/-- The loop ends at the size of the piece, with the text of all its bytes in the array. -/
theorem loop_withText {buffer : Bytes} {k size : Nat} (hsize : size ≤ buffer.length) (m : Nat)
    (hm : lsize + m = size) (ht : 0 ∉ t) (hhead : headlen ≠ 0 ↔ lsize ≠ 0)
    (h : t.length + (shown k lsize (slice buffer lsize size)).length + 10 < n) :
    ∃ headlen',
      loop n buffer size (m + 1)
          (withText n (BitVec.ofNat 32 (k + (lsize + 31) / 32)) t lsize headlen) =
        some (withText n (BitVec.ofNat 32 (k + (size + 31) / 32))
          (t ++ shown k lsize (slice buffer lsize size)) size headlen') := by
  induction m generalizing t lsize headlen with
  | zero =>
    have hend : lsize = size := hm
    subst hend
    refine ⟨headlen, ?_⟩
    rw [loop, if_neg (fun hmore => Nat.lt_irrefl _ hmore.1), slice_self, shown, List.append_nil]
  | succ m ih =>
    have hp : lsize < buffer.length := by omega
    have hslice : slice buffer lsize size = buffer[lsize] :: slice buffer (lsize + 1) size := by
      have hlt : lsize < (buffer.take size).length := by
        rw [List.length_take]
        omega
      rw [slice, List.drop_eq_getElem_cons hlt, List.getElem_take, slice]
    have hlen : ((before k lsize ++ hexByte buffer[lsize]) ++
        shown k (lsize + 1) (slice buffer (lsize + 1) size)).length =
          (before k lsize ++ hexByte buffer[lsize]).length +
            (shown k (lsize + 1) (slice buffer (lsize + 1) size)).length := List.length_append
    rw [hslice, shown] at h ⊢
    have hbyte : 0 ∉ t ++ (before k lsize ++ hexByte buffer[lsize]) := by
      simp only [List.mem_append]
      rintro (hin | hin | hin)
      · exact ht hin
      · exact zero_not_mem_before k lsize hin
      · exact absurd (range_of_mem_hexByte hin).1 (by decide)
    have hroom : (t ++ (before k lsize ++ hexByte buffer[lsize])).length +
        (shown k (lsize + 1) (slice buffer (lsize + 1) size)).length + 10 < n := by
      rw [List.length_append]
      omega
    obtain ⟨headlen', hset, hturn⟩ := @turn_withText n t lsize headlen buffer k hp ht hhead
      (by omega)
    obtain ⟨final, hloop⟩ := ih (by omega) hbyte
      ⟨fun _ => Nat.succ_ne_zero lsize, fun _ => hset⟩ hroom
    refine ⟨final, ?_⟩
    rw [loop, if_pos ⟨show lsize < size by omega, show t.length + 10 < n by omega⟩, hturn,
      Option.bind_some, hloop, List.append_assoc]

private theorem run_eq {buffer : Bytes} {k size : Nat} (hsize : size ≤ buffer.length)
    (h : (shown k 0 (buffer.take size)).length + 10 < n) :
    ∃ headlen', run (BitVec.ofNat 32 k) (List.replicate n 0) buffer size =
      some (withText n (BitVec.ofNat 32 (k + (size + 31) / 32)) (shown k 0 (buffer.take size)) size
        headlen') := by
  have hslice : slice buffer 0 size = buffer.take size := List.drop_zero
  have hloop := @loop_withText n [] 0 0 buffer k size hsize size (Nat.zero_add size)
    List.not_mem_nil Iff.rfl (by rw [hslice, List.length_nil]; omega)
  rw [hslice] at hloop
  rw [run, List.length_replicate, ← resize_nil]
  exact hloop

end FormLog

/-- `formLog` on an array of zeros leaves the lines of the piece in it. -/
theorem formLog_eq {n k size : Nat} {buffer : Bytes} (hsize : size ≤ buffer.length)
    (h : (shown k 0 (buffer.take size)).length + 10 < n) :
    formLog (BitVec.ofNat 32 k) (List.replicate n 0) buffer size =
      some (BitVec.ofNat 32 (k + (size + 31) / 32),
        resize (shown k 0 (buffer.take size) ++ [10]) n 0) := by
  obtain ⟨headlen, hrun⟩ := FormLog.run_eq hsize h
  have hlen : (shown k 0 (buffer.take size) ++ [10]).length =
      (shown k 0 (buffer.take size)).length + 1 := List.length_append
  rw [formLog, hrun]
  simp only [Option.bind_eq_bind, Option.bind_some]
  rw [FormLog.put_withText (by omega), Option.bind_some, FormLog.put_withText (by omega),
    Option.bind_some, FormLog.withText, resize_concat_zero (by omega)]
  rfl

/-! ## The loop of outputBinary -/

namespace Dump

/-- The states that the loop of `outputBinary` comes back to. -/
inductive Reached (address : BitVec 64) (buffer : Bytes) : Dump → Prop
  | start : Reached address buffer (start address buffer.length)
  | turn {s s' : Dump} (h : Reached address buffer s) (hmore : buffer.length > s.lsize)
      (hturn : s.turn buffer = some s') : Reached address buffer s'

variable {buffer : Bytes} {s : Dump}

private theorem printBufSize_le (buffer : Bytes) (s : Dump) :
    s.printBufSize buffer ≤ 512 ∧ s.printBufSize buffer ≤ (buffer.drop s.lsize).length := by
  rw [printBufSize, printSize, List.length_drop]
  split <;> omega

/-- The lines of a piece stay short of the 1544 bytes of the array. -/
theorem length_shown_piece (k : Nat) (buffer : Bytes) (s : Dump) :
    (shown k 0 ((buffer.drop s.lsize).take (s.printBufSize buffer))).length ≤ 1248 := by
  have hsize := (printBufSize_le buffer s).1
  have hshown := length_shown_le k 0 ((buffer.drop s.lsize).take (s.printBufSize buffer))
  rw [List.length_take] at hshown
  omega

/-- The size of the piece ends the loop of `formLog`, and not its length guard. -/
theorem run_szbuf {k : Nat} (hindex : s.index = BitVec.ofNat 32 k) :
    ∃ t, FormLog.run s.index szbuf (buffer.drop s.lsize) (s.printBufSize buffer) = some t ∧
      t.lsize = s.printBufSize buffer ∧ t.len + 2 ≤ szbuf.length := by
  have hpiece := length_shown_piece k buffer s
  have hroom : szbuf.length = 1544 := List.length_replicate
  obtain ⟨headlen, hrun⟩ := @FormLog.run_eq 1544 (buffer.drop s.lsize) k _
    (printBufSize_le buffer s).2 (by omega)
  rw [hindex]
  refine ⟨_, hrun, rfl, ?_⟩
  rw [hroom]
  exact Nat.le_trans (Nat.add_le_add_right hpiece 2) (by decide)

/-- A turn adds the text of a piece and the end of its last line. -/
theorem turn_eq {k : Nat} (hindex : s.index = BitVec.ofNat 32 k) :
    s.turn buffer = some ⟨BitVec.ofNat 32 (k + (s.printBufSize buffer + 31) / 32),
      s.lsize + s.printBufSize buffer,
      s.os ++ (shown k 0 ((buffer.drop s.lsize).take (s.printBufSize buffer)) ++ [10])⟩ := by
  have hpiece := length_shown_piece k buffer s
  have hform := @formLog_eq 1544 k _ (buffer.drop s.lsize) (printBufSize_le buffer s).2 (by omega)
  have htext : 0 ∉ shown k 0 ((buffer.drop s.lsize).take (s.printBufSize buffer)) ++ [10] :=
    zero_not_mem_concat (zero_not_mem_shown k 0 _) (by decide)
  have hstr := @cstr_resize _ 1544 htext (by
    rw [List.length_append, List.length_singleton]
    omega)
  rw [turn, hindex, szbuf, show printSize * 3 + 8 = 1544 from rfl, hform]
  simp only [Option.bind_eq_bind, Option.bind_some, hstr]
  rfl

end Dump

end ChatRoom.Base
