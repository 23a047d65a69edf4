import ChatRoom.Base.HexDump
import ChatRoom.Core.Atoll
import ChatRoom.Core.Chunks

/-!
# The lines of a dump

The text that `outputBinary` makes of a buffer is the line of every row of 32 bytes, numbered
from zero through all pieces. Read back line by line, without numbers and white space, it is
the buffer in hexadecimal.
-/

namespace ChatRoom.Base

open ChatRoom.Core

/-! ## Rows -/

/-- The line of a row: a number and two halves. -/
def dumpLine (k : Nat) (row : Bytes) : Bytes :=
  ullto4Str (BitVec.ofNat 32 k) ++ 32 :: 32 ::
    (hexText (row.take 16) ++ if 16 < row.length then 32 :: hexText (row.drop 16) else [])

/-- The lines of consecutive rows. -/
def numbered (k : Nat) : List Bytes → List Bytes
  | [] => []
  | row :: rows => dumpLine k row :: numbered (k + 1) rows

/-- Lines with their newlines. -/
def unlines (ls : List Bytes) : Bytes := ls.flatMap (· ++ [10])

private theorem numbered_append (k : Nat) (a b : List Bytes) :
    numbered k (a ++ b) = numbered k a ++ numbered (k + a.length) b := by
  induction a generalizing k with
  | nil => rfl
  | cons row a ih =>
    rw [List.cons_append, numbered, numbered, ih, List.length_cons, List.cons_append,
      Nat.add_assoc k 1, Nat.add_comm 1]

private theorem unlines_append (a b : List Bytes) : unlines (a ++ b) = unlines a ++ unlines b :=
  List.flatMap_append

private theorem unlines_cons (l : Bytes) (ls : List Bytes) :
    unlines (l :: ls) = l ++ [10] ++ unlines ls :=
  List.flatMap_cons

private theorem shown_append (k p : Nat) (a b : Bytes) :
    shown k p (a ++ b) = shown k p a ++ shown k (p + a.length) b := by
  induction a generalizing p with
  | nil => rfl
  | cons c a ih =>
    rw [List.cons_append, shown, shown, ih, List.length_cons, Nat.add_assoc p 1, Nat.add_comm 1]
    simp only [List.append_assoc]

private theorem rowStart_of_ne {k p : Nat} (h : p % 32 ≠ 0) : rowStart k p = [] := if_neg h

/-- Between two halves of a row there is nothing but digits. -/
theorem shown_inside {k p : Nat} {bytes : Bytes} (hp : p % 16 ≠ 0)
    (h : p % 16 + bytes.length ≤ 16) : shown k p bytes = hexText bytes := by
  induction bytes generalizing p with
  | nil => rfl
  | cons c rest ih =>
    rw [List.length_cons] at h
    have hbefore : before k p = [] := by
      rw [before, rowStart_of_ne (by omega), if_neg hp]
      rfl
    rw [shown, hbefore, hexText, List.flatMap_cons, List.nil_append, ← hexText]
    cases rest with
    | nil => rfl
    | cons d rest =>
      rw [List.length_cons] at h ih
      rw [ih (by omega) (by omega)]

/-- A half of a row. -/
theorem shown_half {k p : Nat} {bytes : Bytes} (hp : p % 16 = 0) (hne : bytes ≠ [])
    (h : bytes.length ≤ 16) : shown k p bytes = rowStart k p ++ 32 :: hexText bytes := by
  obtain ⟨c, rest, rfl⟩ := List.exists_cons_of_ne_nil hne
  rw [List.length_cons] at h
  rw [shown, before, if_pos hp, @shown_inside k (p + 1) rest (by omega) (by omega), hexText,
    hexText, List.flatMap_cons]
  simp only [List.append_assoc, List.cons_append, List.nil_append]

/-- A row, behind the end of the line above. -/
theorem shown_row {k j : Nat} {row : Bytes} (hne : row ≠ []) (h : row.length ≤ 32) :
    shown k (32 * j) row = (if j ≠ 0 then [10] else []) ++ dumpLine (k + j) row := by
  have hpos := List.length_pos_iff.mpr hne
  have hstart : rowStart k (32 * j) =
      (if j ≠ 0 then [10] else []) ++ (ullto4Str (BitVec.ofNat 32 (k + j)) ++ [32]) := by
    have hzero : 32 * j ≠ 0 ↔ j ≠ 0 := by omega
    rw [rowStart, if_pos (Nat.mul_mod_right 32 j), Nat.mul_div_cancel_left j (by decide)]
    simp only [hzero]
  have hfirst : row.take 16 ≠ [] := by
    apply List.length_pos_iff.mp
    rw [List.length_take]
    omega
  have hlow := @shown_half k (32 * j) (row.take 16) (by omega) hfirst (List.length_take_le 16 row)
  rw [← List.take_append_drop 16 row, shown_append, hlow, hstart, dumpLine,
    List.take_append_drop]
  by_cases hlong : 16 < row.length
  · have hsecond : row.drop 16 ≠ [] := by
      apply List.length_pos_iff.mp
      rw [List.length_drop]
      omega
    have hlen : (row.take 16).length = 16 := by
      rw [List.length_take]
      omega
    have hhigh := @shown_half k (32 * j + 16) (row.drop 16) (by omega) hsecond (by
      rw [List.length_drop]
      omega)
    rw [hlen, hhigh, rowStart_of_ne (by omega), if_pos hlong]
    simp only [List.append_assoc, List.nil_append, List.cons_append]
  · rw [List.drop_eq_nil_of_le (Nat.not_lt.mp hlong), shown, if_neg hlong]
    simp only [List.append_assoc, List.append_nil, List.cons_append, List.nil_append]

/-- A piece is its rows, and the newline that `formLog` puts at its end is that of the last. -/
theorem shown_rows (k : Nat) {j : Nat} {piece : Bytes} (hne : piece ≠ []) :
    shown k (32 * j) piece ++ [10] =
      (if j ≠ 0 then [10] else []) ++ unlines (numbered (k + j) (chunks 32 piece)) := by
  induction piece using chunks_induction (n := 32) (by decide) generalizing j with
  | nil => exact absurd rfl hne
  | row row hrow hlen =>
    rw [chunks_row hlen hrow, shown_row hrow hlen, numbered, numbered, unlines_cons]
    simp only [unlines, List.flatMap_nil, List.append_nil, List.append_assoc]
  | full row rest hlen hrest ih =>
    have hrow : row ≠ [] := List.length_pos_iff.mp (by omega)
    have hnext := ih (j := j + 1) hrest
    rw [if_pos (Nat.succ_ne_zero j), Nat.mul_succ] at hnext
    rw [chunks_full (by decide) hlen, shown_append, shown_row hrow (Nat.le_of_eq hlen), hlen,
      List.append_assoc, hnext, numbered, unlines_cons, Nat.add_assoc k j 1]
    simp only [List.append_assoc]

/-- The text of a buffer. -/
def dumpText (buffer : Bytes) : Bytes := unlines (numbered 0 (chunks 32 buffer))

/-- A piece behind whole rows. -/
theorem dumpText_append {a piece : Bytes} (h : 32 ∣ a.length) (hne : piece ≠ []) :
    dumpText (a ++ piece) = dumpText a ++ (shown (a.length / 32) 0 piece ++ [10]) := by
  have hrows : (chunks 32 a).length = a.length / 32 := by
    rw [length_chunks (by decide)]
    omega
  have hpiece := @shown_rows (a.length / 32) 0 piece hne
  rw [Nat.mul_zero, if_neg (not_not_intro rfl), List.nil_append, Nat.add_zero] at hpiece
  rw [dumpText, chunks_append (by decide) h, numbered_append, unlines_append, Nat.zero_add, hrows,
    hpiece, dumpText]

/-! ## outputBinary -/

namespace Dump

variable {address : BitVec 64} {buffer : Bytes} {s s' : Dump}

/-- The state between two pieces: whole rows, unless everything is done, and their text. -/
structure AtPiece (address : BitVec 64) (buffer : Bytes) (s : Dump) : Prop where
  le : s.lsize ≤ buffer.length
  rows : 32 ∣ s.lsize ∨ s.lsize = buffer.length
  index : s.index = BitVec.ofNat 32 ((s.lsize + 31) / 32)
  os : s.os = addressLine address buffer.length ++ dumpText (buffer.take s.lsize)

private theorem AtPiece.start (address : BitVec 64) (buffer : Bytes) :
    AtPiece address buffer (start address buffer.length) := by
  have hindex : (0 : BitVec 32) = BitVec.ofNat 32 ((0 + 31) / 32) := by decide
  refine ⟨Nat.zero_le _, Or.inl (Nat.dvd_zero 32), hindex, ?_⟩
  have hnone : dumpText [] = [] := by
    rw [dumpText, chunks_nil]
    rfl
  rw [show (Dump.start address buffer.length).lsize = 0 from rfl, List.take_zero, hnone,
    List.append_nil]
  rfl

/-- A turn goes from one piece to the next. -/
theorem AtPiece.turn (h : AtPiece address buffer s) (hmore : buffer.length > s.lsize) :
    ∃ s', s.turn buffer = some s' ∧ s.lsize < s'.lsize ∧ AtPiece address buffer s' := by
  obtain ⟨_, hrows, hindex, hos⟩ := h
  have hdvd : 32 ∣ s.lsize := hrows.resolve_right (Nat.ne_of_lt hmore)
  have hsize : s.printBufSize buffer =
      if buffer.length - s.lsize > 512 then 512 else buffer.length - s.lsize := rfl
  have hpos : 0 < s.printBufSize buffer := by
    rw [hsize]
    split <;> omega
  have hpiece : (buffer.drop s.lsize).take (s.printBufSize buffer) ≠ [] := by
    apply List.length_pos_iff.mp
    rw [List.length_take, List.length_drop]
    omega
  have hlen : (buffer.take s.lsize).length = s.lsize := by
    rw [List.length_take]
    omega
  have htext := @dumpText_append (buffer.take s.lsize) _ (by rw [hlen]; exact hdvd) hpiece
  rw [hlen, ← List.take_add] at htext
  have hk : (s.lsize + 31) / 32 = s.lsize / 32 := by omega
  refine ⟨_, turn_eq hindex, Nat.lt_add_of_pos_right hpos, ?_, ?_, ?_, ?_⟩
  · dsimp only
    rw [hsize]
    split <;> omega
  · dsimp only
    rw [hsize]
    split <;> omega
  · dsimp only
    rw [show (s.lsize + 31) / 32 + (s.printBufSize buffer + 31) / 32 =
      (s.lsize + s.printBufSize buffer + 31) / 32 by omega]
  · dsimp only
    rw [htext, hos, hk, List.append_assoc]

private theorem AtPiece.of_reached (h : Reached address buffer s) : AtPiece address buffer s := by
  induction h with
  | start => exact AtPiece.start address buffer
  | turn _ hmore hturn ih =>
    obtain ⟨s', hturn', _, hat⟩ := ih.turn hmore
    rw [hturn] at hturn'
    cases hturn'
    exact hat

/-- The loop ends when the whole buffer is shown. -/
theorem AtPiece.loop (fuel : Nat) (h : AtPiece address buffer s)
    (hfuel : buffer.length - s.lsize < fuel) :
    ∃ s', Dump.loop buffer fuel s = some s' ∧
      s'.os = addressLine address buffer.length ++ dumpText buffer := by
  induction fuel generalizing s with
  | zero => exact absurd hfuel (Nat.not_lt_zero _)
  | succ fuel ih =>
    rw [Dump.loop]
    by_cases hmore : buffer.length > s.lsize
    · obtain ⟨s', hturn, hlt, hat⟩ := h.turn hmore
      rw [if_pos hmore, hturn, Option.bind_some]
      exact ih hat (by omega)
    · rw [if_neg hmore]
      refine ⟨s, rfl, ?_⟩
      rw [h.os, List.take_of_length_le (Nat.not_lt.mp hmore)]

end Dump

/-! ## Reading the lines back -/

/-- The number at the start of a line. -/
def lineNumber (line : Bytes) : Nat := Decimal.value (line.takeWhile (¬ isSpace ·))

/-- A line without its number and white space. -/
def lineHex (line : Bytes) : Bytes := (line.dropWhile (¬ isSpace ·)).filter (¬ isSpace ·)

private theorem isSpace_of_range {c : UInt8} (h : 48 ≤ c.toNat) : isSpace c = false := by
  have hthirteen : (13 : UInt8).toNat = 13 := rfl
  rw [isSpace, decide_eq_false_iff_not, not_or, UInt8.le_iff_toNat_le, UInt8.le_iff_toNat_le,
    hthirteen]
  constructor
  · rintro rfl
    exact absurd h (by decide)
  · rintro ⟨_, hle⟩
    omega

private theorem not_isSpace_of_mem_hexText {bytes : Bytes} {c : UInt8} (h : c ∈ hexText bytes) :
    isSpace c = false := by
  obtain ⟨b, _, hc⟩ := List.mem_flatMap.mp h
  exact isSpace_of_range (range_of_mem_hexByte hc).1

private theorem filter_hexText (bytes : Bytes) :
    (hexText bytes).filter (¬ isSpace ·) = hexText bytes := by
  apply List.filter_eq_self.mpr
  intro c hc
  rw [not_isSpace_of_mem_hexText hc]
  rfl

private theorem dumpLine_split (k : Nat) (row : Bytes) :
    lineNumber (dumpLine k row) = (BitVec.ofNat 32 k).toNat ∧
      lineHex (dumpLine k row) = hexText row := by
  have hdigits : ∀ c ∈ ullto4Str (BitVec.ofNat 32 k), decide (¬ isSpace c = true) = true := by
    intro c hc
    rw [isSpace_of_range (range_of_mem_ullto4Str hc).1]
    rfl
  constructor
  · rw [lineNumber, dumpLine, List.takeWhile_append_of_pos hdigits, List.takeWhile_cons_of_neg
      (by decide), List.append_nil, value_ullto4Str]
  · rw [lineHex, dumpLine, List.dropWhile_append_of_pos hdigits, List.dropWhile_cons_of_neg
      (by decide), List.filter_cons_of_neg (by decide), List.filter_cons_of_neg (by decide),
      List.filter_append, filter_hexText]
    by_cases hlong : 16 < row.length
    · rw [if_pos hlong, List.filter_cons_of_neg (by decide), filter_hexText, hexText, hexText,
        hexText, ← List.flatMap_append, List.take_append_drop]
    · rw [if_neg hlong, List.filter_nil, List.append_nil,
        List.take_of_length_le (Nat.not_lt.mp hlong)]

private theorem newline_not_mem_dumpLine (k : Nat) (row : Bytes) : 10 ∉ dumpLine k row := by
  have hhex : ∀ bytes : Bytes, 10 ∉ hexText bytes := by
    intro bytes h
    exact absurd (not_isSpace_of_mem_hexText h) (by decide)
  have hnumber : 10 ∉ ullto4Str (BitVec.ofNat 32 k) := by
    intro h
    exact absurd (range_of_mem_ullto4Str h).1 (by decide)
  rw [dumpLine]
  split
  · simp only [List.mem_append, List.mem_cons, hhex, hnumber, or_false, false_or]
    decide
  · simp only [List.mem_append, List.mem_cons, List.not_mem_nil, hhex, hnumber, or_false, false_or]
    decide

private theorem lines_unlines_numbered (k : Nat) (rows : List Bytes) :
    lines (unlines (numbered k rows)) = numbered k rows := by
  induction rows generalizing k with
  | nil => rfl
  | cons row rows ih =>
    rw [numbered, unlines_cons, List.append_assoc, List.singleton_append,
      lines_append_newline _ (newline_not_mem_dumpLine k row), ih]

private theorem map_lineNumber_numbered {k : Nat} {rows : List Bytes}
    (h : k + rows.length ≤ 2 ^ 32) :
    (numbered k rows).map lineNumber = List.range' k rows.length := by
  induction rows generalizing k with
  | nil => rfl
  | cons row rows ih =>
    rw [List.length_cons] at h
    rw [numbered, List.map_cons, (dumpLine_split k row).1, ih (by omega), BitVec.toNat_ofNat,
      Nat.mod_eq_of_lt (by omega), List.length_cons, List.range'_succ]

private theorem map_lineHex_numbered (k : Nat) (rows : List Bytes) :
    (numbered k rows).map lineHex = rows.map hexText := by
  induction rows generalizing k with
  | nil => rfl
  | cons row rows ih =>
    rw [numbered, List.map_cons, List.map_cons, (dumpLine_split k row).2, ih]

private theorem length_hexText (bytes : Bytes) : (hexText bytes).length = 2 * bytes.length := by
  induction bytes with
  | nil => rfl
  | cons c bytes ih =>
    rw [hexText, List.flatMap_cons, List.length_append, ← hexText, ih, List.length_cons]
    have hbyte : (hexByte c).length = 2 := rfl
    omega

private theorem hexText_flatten (rows : List Bytes) :
    (rows.map hexText).flatten = hexText rows.flatten := by
  induction rows with
  | nil => rfl
  | cons row rows ih =>
    rw [List.map_cons, List.flatten_cons, ih, List.flatten_cons, hexText, hexText, hexText,
      List.flatMap_append]

/-- The whole dump: its lines are numbered from zero, and what remains of them is the buffer. -/
theorem dumpText_lines {buffer : Bytes} (h : buffer.length < 2 ^ 36) :
    dumpText buffer = unlines (lines (dumpText buffer)) ∧
      (lines (dumpText buffer)).map lineNumber = List.range ((buffer.length + 31) / 32) ∧
      (∀ line ∈ lines (dumpText buffer), (lineHex line).length ≤ 2 * 32) ∧
      ((lines (dumpText buffer)).map lineHex).flatten = hexText buffer := by
  have hlines := lines_unlines_numbered 0 (chunks 32 buffer)
  have hcount := @length_chunks _ 32 (by decide) buffer
  rw [dumpText, hlines]
  refine ⟨rfl, ?_, ?_, ?_⟩
  · rw [map_lineNumber_numbered (by omega), hcount, List.range_eq_range']
  · intro line hline
    have hmem : lineHex line ∈ (numbered 0 (chunks 32 buffer)).map lineHex :=
      List.mem_map_of_mem hline
    rw [map_lineHex_numbered] at hmem
    obtain ⟨row, hrow, heq⟩ := List.mem_map.mp hmem
    have hlen := length_le_of_mem_chunks (by decide) row hrow
    rw [← heq, length_hexText]
    omega
  · rw [map_lineHex_numbered, hexText_flatten, flatten_chunks (by decide)]

private theorem outputBinary_eq (log : CAsyncLog) (address : BitVec 64) (buffer : Bytes) :
    log.outputBinary address buffer =
      some { log with
        listLinesToWrite :=
          log.listLinesToWrite ++ [Dump.addressLine address buffer.length ++ dumpText buffer] } := by
  obtain ⟨s, hloop, hos⟩ := (Dump.AtPiece.start address buffer).loop (buffer.length + 1)
    (Nat.lt_succ_of_le (Nat.sub_le _ _))
  rw [CAsyncLog.outputBinary, hloop]
  simp only [Option.bind_eq_bind, Option.bind_some, hos]
  rfl

/-- To the thread that writes the log, a dump is a line like any other. -/
theorem outputBinary_eq_step (localtime : Int → Tm) (log : CAsyncLog) (address : BitVec 64)
    (buffer : Bytes) :
    log.outputBinary address buffer = some (log.step localtime
      (.output (Dump.addressLine address buffer.length ++ dumpText buffer))) :=
  outputBinary_eq log address buffer

/-- `outputBinary` ends without a write outside of an array, each loop of `formLog` ends at the
size of its piece, and the line that is output is the address line and the whole dump. -/
theorem outputBinary_hexDump (log : CAsyncLog) (address : BitVec 64) (buffer : Bytes)
    (h : buffer.length < 2 ^ 36) :
    (∃ text, log.outputBinary address buffer =
        some { log with
          listLinesToWrite :=
            log.listLinesToWrite ++ [Dump.addressLine address buffer.length ++ text] } ∧
      text = unlines (lines text) ∧
      (lines text).map lineNumber = List.range ((buffer.length + 31) / 32) ∧
      (∀ line ∈ lines text, (lineHex line).length ≤ 2 * 32) ∧
      ((lines text).map lineHex).flatten = hexText buffer) ∧
    ∀ s, Dump.Reached address buffer s → buffer.length > s.lsize →
      ∃ t, FormLog.run s.index Dump.szbuf (buffer.drop s.lsize) (s.printBufSize buffer) = some t ∧
        t.lsize = s.printBufSize buffer ∧ t.len + 2 ≤ Dump.szbuf.length := by
  constructor
  · exact ⟨dumpText buffer, outputBinary_eq log address buffer, dumpText_lines h⟩
  · intro s hreached _
    exact Dump.run_szbuf (Dump.AtPiece.of_reached hreached).index

/-- Thirty-three bytes take two lines. -/
theorem outputBinary_of_33_bytes :
    (∃ text, (CAsyncLog.init [] [] 0).outputBinary 0 (List.replicate 33 0xab) =
        some { CAsyncLog.init [] [] 0 with
          listLinesToWrite := (CAsyncLog.init [] [] 0).listLinesToWrite ++
            [Dump.addressLine 0 (List.replicate 33 (0xab : UInt8)).length ++ text] } ∧
      text = unlines (lines text) ∧
      (lines text).map lineNumber =
        List.range (((List.replicate 33 (0xab : UInt8)).length + 31) / 32) ∧
      (∀ line ∈ lines text, (lineHex line).length ≤ 2 * 32) ∧
      ((lines text).map lineHex).flatten = hexText (List.replicate 33 0xab)) ∧
    ∀ s, Dump.Reached 0 (List.replicate 33 0xab) s →
      (List.replicate 33 (0xab : UInt8)).length > s.lsize →
        ∃ t, FormLog.run s.index Dump.szbuf ((List.replicate 33 0xab).drop s.lsize)
            (s.printBufSize (List.replicate 33 0xab)) = some t ∧
          t.lsize = s.printBufSize (List.replicate 33 0xab) ∧ t.len + 2 ≤ Dump.szbuf.length :=
  outputBinary_hexDump (CAsyncLog.init [] [] 0) 0 (List.replicate 33 0xab) (by decide)

end ChatRoom.Base
