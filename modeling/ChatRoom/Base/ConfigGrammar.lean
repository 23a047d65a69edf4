import ChatRoom.Base.ConfigFileReader

/-!
# What the configuration reader makes of a file

The reference parse takes the lines one by one: comment off, split at the first `=`, blanks
off both parts. The reader parses what `fgets` delivers, which is the file with each line cut
after every 255 bytes; so it agrees with the reference on files whose longer lines may be cut,
such as comments with no `=` behind the first 255 bytes. It stays inside its arrays unless a
piece starts with a NUL.
-/

namespace ChatRoom.Base

open ChatRoom.Core

/-! ## The reference -/

/-- A text without the blanks at its ends. -/
def trim (s : Bytes) : Bytes := (s.dropWhile isBlank).rdropWhile isBlank

/-- The pair that a line contributes. -/
def lineEntry (line : Bytes) : Option (Bytes × Bytes) :=
  let text := line.takeWhile (· ≠ 35)
  let key := trim (text.takeWhile (· ≠ 61))
  let value := trim ((text.dropWhile (· ≠ 61)).drop 1)
  if 61 ∈ text ∧ key ≠ [] ∧ value ≠ [] then some (key, value) else none

/-- Every line's pair in order, unless its key is there already. -/
def parseLines (ls : List Bytes) : ConfigMap :=
  SortedMap.empty.insertAll (ls.filterMap lineEntry)

/-- A configuration file read line by line, whatever the length of its lines. -/
def referenceParse (content : Bytes) : ConfigMap := parseLines (lines content)

/-- A line cut after every 255 bytes. -/
def cutLine (l : Bytes) : List Bytes :=
  if l.length ≤ 255 then [l] else l.take 255 :: cutLine (l.drop 255)
termination_by l.length
decreasing_by
  rw [List.length_drop]
  omega

/-! ## trimSpace -/

private theorem rdropWhile_append_of_ne_nil {p : UInt8 → Bool} {a b : Bytes}
    (h : b.rdropWhile p ≠ []) : (a ++ b).rdropWhile p = a ++ b.rdropWhile p := by
  have hne : b.reverse.dropWhile p ≠ [] := by
    intro hnil
    exact h (by rw [List.rdropWhile, hnil, List.reverse_nil])
  simp only [List.rdropWhile, List.reverse_append, List.dropWhile_append]
  rw [if_neg (by simpa only [List.isEmpty_iff] using hne), List.reverse_append,
    List.reverse_reverse]

private theorem eq_take_length_rdropWhile (p : UInt8 → Bool) (s : Bytes) :
    s.take (s.rdropWhile p).length = s.rdropWhile p :=
  (List.prefix_iff_eq_take.mp (List.rdropWhile_prefix p s)).symm

/-- The step back stops behind the last byte that is no blank. -/
theorem trimEnd_value (offset : Nat) (name : Bytes) {k : Nat} (hk : k ≤ name.length) :
    (trimEnd offset name k).value = ((name.take k).rdropWhile isBlank).length := by
  induction k with
  | zero => rw [List.take_zero, List.rdropWhile_nil]; rfl
  | succ k ih =>
    have hget : name.getD k 0 = name[k] := by
      rw [List.getD_eq_getElem?_getD, List.getElem?_eq_getElem hk, Option.getD_some]
    rw [List.take_succ_eq_append_getElem hk, List.rdropWhile_concat, trimEnd, Traced.bind_value,
      hget]
    by_cases hblank : isBlank name[k] = true
    · rw [if_pos hblank, if_pos hblank]
      exact ih (Nat.le_of_succ_le hk)
    · rw [if_neg hblank, if_neg hblank, List.length_append, List.length_singleton,
        List.length_take, Nat.min_eq_left (Nat.le_of_succ_le hk)]
      rfl

/-- The step back stays on the string as long as some byte of it is no blank. -/
theorem trimEnd_accesses (offset : Nat) (name : Bytes) {k : Nat} (hk : k ≤ name.length)
    (h : ∃ c ∈ name.take k, isBlank c = false) :
    (trimEnd offset name k).All fun i : Int => 0 ≤ i ∧ i < offset + k := by
  induction k with
  | zero =>
    obtain ⟨c, hc, -⟩ := h
    rw [List.take_zero] at hc
    cases hc
  | succ k ih =>
    have hget : name.getD k 0 = name[k] := by
      rw [List.getD_eq_getElem?_getD, List.getElem?_eq_getElem hk, Option.getD_some]
    rw [trimEnd, Traced.all_bind]
    refine ⟨?_, ?_⟩
    · rw [touch, Traced.all_singleton]
      omega
    · rw [hget]
      by_cases hblank : isBlank name[k] = true
      · rw [if_pos hblank]
        have hearlier : ∃ c ∈ name.take k, isBlank c = false := by
          obtain ⟨c, hc, hno⟩ := h
          rw [List.take_succ_eq_append_getElem hk] at hc
          rcases List.mem_append.mp hc with hc | hc
          · exact ⟨c, hc, hno⟩
          · rw [List.mem_singleton.mp hc, hblank] at hno
            cases hno
        intro i hi
        have := ih (Nat.le_of_succ_le hk) hearlier i hi
        omega
      · rw [if_neg hblank]
        exact Traced.all_pure _ _

private theorem length_takeWhile_add_dropWhile (p : UInt8 → Bool) (s : Bytes) :
    (s.takeWhile p).length + (s.dropWhile p).length = s.length := by
  rw [← List.length_append, List.takeWhile_append_dropWhile]

private theorem exists_of_dropWhile_ne_nil {p : UInt8 → Bool} {s : Bytes} (h : s.dropWhile p ≠ []) :
    ∃ c ∈ s, p c = false := by
  by_contra hall
  apply h
  apply List.dropWhile_eq_nil_iff.mpr
  intro c hc
  by_contra hno
  exact hall ⟨c, hc, Bool.not_eq_true _ ▸ hno⟩

private theorem trim_ne_nil {s : Bytes} (h : s.dropWhile isBlank ≠ []) : trim s ≠ [] := by
  intro hnil
  have hhead := List.head_dropWhile_not isBlank h
  have hall := List.rdropWhile_eq_nil_iff.mp hnil _ (List.head_mem h)
  rw [hhead] at hall
  cases hall

private theorem trimSpace_value (offset : Nat) (name : Bytes) :
    (trimSpace offset name).value = if trim name = [] then none else some (trim name) := by
  have hsplit := List.takeWhile_append_dropWhile (p := isBlank) (l := name)
  have hlen := length_takeWhile_add_dropWhile isBlank name
  rw [trimSpace, Traced.bind_value]
  by_cases hrest : name.dropWhile isBlank = []
  · have htrim : trim name = [] := by rw [trim, hrest, List.rdropWhile_nil]
    rw [hrest, List.length_nil] at hlen
    rw [if_pos (by omega), if_pos htrim]
    rfl
  · have htrim := trim_ne_nil hrest
    have hpos := List.length_pos_iff.mpr hrest
    have hstop : name.rdropWhile isBlank = name.takeWhile isBlank ++ trim name := by
      have happend := rdropWhile_append_of_ne_nil (a := name.takeWhile isBlank) htrim
      rw [hsplit] at happend
      exact happend
    have hlong := List.length_pos_iff.mpr htrim
    rw [if_neg (by omega), if_neg htrim, Traced.map_value,
      trimEnd_value offset name (Nat.le_refl _), List.take_length]
    rw [if_neg (by rw [hstop, List.length_append]; omega), eq_take_length_rdropWhile, hstop,
      List.drop_left]

/-- `trimSpace` looks at its string and the byte that ends it. -/
theorem trimSpace_accesses (offset : Nat) (name : Bytes) :
    (trimSpace offset name).All fun i : Int => 0 ≤ i ∧ i ≤ offset + name.length := by
  have hlen := length_takeWhile_add_dropWhile isBlank name
  rw [trimSpace, Traced.all_bind]
  constructor
  · intro i hi
    obtain ⟨j, hj, rfl⟩ := List.mem_map.mp hi
    have := List.mem_range.mp hj
    omega
  · by_cases hrest : name.length - (name.takeWhile isBlank).length = 0
    · rw [if_pos hrest]
      exact Traced.all_pure _ _
    · rw [if_neg hrest, Traced.all_map]
      have hne : name.dropWhile isBlank ≠ [] := List.length_pos_iff.mp (by omega)
      have hsome := exists_of_dropWhile_ne_nil hne
      rw [← List.take_length (l := name)] at hsome
      intro i hi
      have := trimEnd_accesses offset name (Nat.le_refl _) (by simpa using hsome) i hi
      omega

/-! ## One piece -/

/-- An index into `char buf[256]`. -/
def InBuffer (i : Int) : Prop := 0 ≤ i ∧ i < 256

private theorem take_length_takeWhile (p : UInt8 → Bool) (s : Bytes) :
    s.take (s.takeWhile p).length = s.takeWhile p :=
  (List.prefix_iff_eq_take.mp (List.takeWhile_prefix p)).symm

private theorem drop_length_takeWhile (p : UInt8 → Bool) (s : Bytes) :
    s.drop (s.takeWhile p).length = s.dropWhile p := by
  have hsplit : (s.takeWhile p ++ s.dropWhile p).drop (s.takeWhile p).length = s.dropWhile p :=
    List.drop_left
  rw [List.takeWhile_append_dropWhile] at hsplit
  exact hsplit

private theorem parseLine_value (line : Bytes) :
    (parseLine line).value =
      let key := trim (line.takeWhile (· ≠ 61))
      let value := trim ((line.dropWhile (· ≠ 61)).drop 1)
      if 61 ∈ line ∧ key ≠ [] ∧ value ≠ [] then some (key, value) else none := by
  rw [parseLine]
  by_cases hmem : 61 ∈ line
  · rw [if_pos hmem, Traced.bind_value, Traced.map_value, trimSpace_value, trimSpace_value,
      take_length_takeWhile, ← List.drop_drop, drop_length_takeWhile]
    by_cases hkey : trim (line.takeWhile (· ≠ 61)) = []
    · simp only [hkey, if_true, Option.bind_none, ne_eq, not_true_eq_false, false_and, and_false,
        if_false]
    · by_cases hvalue : trim ((line.dropWhile (· ≠ 61)).drop 1) = []
      · simp only [hvalue, if_true, Option.map_none, Option.bind_fun_none, ne_eq,
          not_true_eq_false, and_false, if_false]
      · simp only [hmem, hkey, hvalue, if_false, Option.bind_some, Option.map_some, ne_eq,
          not_false_eq_true, and_self, if_true]
  · rw [if_neg hmem]
    simp only [hmem, false_and, if_false]
    rfl

private theorem parseLine_accesses {line : Bytes} (h : line.length ≤ 255) :
    (parseLine line).All InBuffer := by
  have hpre := (List.takeWhile_prefix (l := line) (fun c => decide (c ≠ 61))).length_le
  rw [parseLine]
  by_cases hmem : 61 ∈ line
  · have hlt : (line.takeWhile (· ≠ 61)).length < line.length := by
      rcases Nat.lt_or_eq_of_le hpre with hlt | heq
      · exact hlt
      · have hall := (List.takeWhile_prefix (l := line) (fun c => decide (c ≠ 61))).eq_of_length heq
        have := List.takeWhile_eq_self_iff.mp hall 61 hmem
        exact absurd this (by decide)
    rw [if_pos hmem, Traced.all_bind, Traced.all_map]
    constructor
    · intro i hi
      have := trimSpace_accesses 0 _ i hi
      rw [List.length_take] at this
      exact ⟨this.1, by omega⟩
    · intro i hi
      have := trimSpace_accesses _ _ i hi
      rw [List.length_drop] at this
      exact ⟨this.1, by omega⟩
  · rw [if_neg hmem]
    exact Traced.all_pure _ _

/-- What the loop does once the newline is off. -/
theorem value_text (line : Bytes) :
    (if line.takeWhile (· ≠ 35) = [] then Traced.pure none
      else parseLine (line.takeWhile (· ≠ 35))).value = lineEntry line := by
  by_cases hempty : line.takeWhile (· ≠ 35) = []
  · rw [if_pos hempty, lineEntry, hempty]
    rfl
  · rw [if_neg hempty, parseLine_value]
    rfl

/-- A piece without its newline is parsed as the line. -/
theorem loadPiece_line {line : Bytes} (hnul : 0 ∉ line) (hnl : 10 ∉ line) :
    (loadPiece line).value = lineEntry line := by
  have hlast : line.getLast? ≠ some 10 := fun h => hnl (List.mem_of_getLast? h)
  rw [loadPiece, Traced.bind_value, cstr_of_not_mem hnul]
  simp only [if_neg hlast]
  exact value_text line

/-- A whole line is parsed as its entry, with its newline or without. -/
theorem loadPiece_line_newline {line : Bytes} (hnul : 0 ∉ line) :
    (loadPiece (line ++ [10])).value = lineEntry line := by
  have hnul' : 0 ∉ line ++ [10] := by
    rw [List.mem_append, List.mem_singleton]
    rintro (h | h)
    · exact hnul h
    · cases h
  rw [loadPiece, Traced.bind_value, cstr_of_not_mem hnul', List.getLast?_concat]
  simp only [if_true, List.dropLast_concat]
  exact value_text line

/-- The only index outside the array is the one in front of it, of a piece that is the empty
string. -/
theorem loadPiece_accesses {piece : Bytes} (hne : piece ≠ []) (hlen : piece.length ≤ 255) :
    (loadPiece piece).All InBuffer ↔ piece.head? ≠ some 0 := by
  have hle : (cstr piece).length ≤ piece.length := (List.takeWhile_prefix _).length_le
  have hempty : cstr piece = [] ↔ piece.head? = some 0 := by
    cases piece with
    | nil => exact absurd rfl hne
    | cons c piece =>
      rw [cstr, List.head?_cons, Option.some.injEq]
      by_cases hc : c = 0
      · simp [hc]
      · simp [hc]
  rw [loadPiece, Traced.all_bind, touch, Traced.all_singleton, ne_eq, ← hempty,
    ← List.length_eq_zero_iff]
  constructor
  · rintro ⟨⟨hlow, -⟩, -⟩
    omega
  · intro hpos
    refine ⟨⟨by omega, by omega⟩, ?_⟩
    generalize hbuf : (if (cstr piece).getLast? = some 10 then (cstr piece).dropLast
      else cstr piece) = buf
    have hbuflen : buf.length ≤ 255 := by
      rw [← hbuf]
      split
      · rw [List.length_dropLast]
        omega
      · omega
    have htext := (List.takeWhile_prefix (l := buf) (fun c => decide (c ≠ 35))).length_le
    dsimp only
    split
    · exact Traced.all_pure _ _
    · exact parseLine_accesses (Nat.le_trans htext hbuflen)

/-! ## The pieces -/

/-- Bytes without a newline are read as far as there is room. -/
theorem fgets_append {n : Nat} {l : Bytes} (rest : Bytes) (h : 10 ∉ l) (hlen : l.length ≤ n) :
    fgets n (l ++ rest) =
      (l ++ (fgets (n - l.length) rest).1, (fgets (n - l.length) rest).2) := by
  induction l generalizing n with
  | nil => rfl
  | cons c l ih =>
    rw [List.mem_cons, not_or] at h
    rw [List.length_cons] at hlen
    obtain ⟨n, rfl⟩ := Nat.exists_eq_succ_of_ne_zero (show n ≠ 0 by omega)
    rw [List.cons_append, fgets, if_neg (Ne.symm h.1), ih h.2 (by omega), List.length_cons,
      Nat.succ_sub_succ]
    rfl

/-- `fgets` stops behind a newline. -/
theorem fgets_newline {n : Nat} (h : 0 < n) (rest : Bytes) : fgets n (10 :: rest) = ([10], rest) := by
  obtain ⟨n, rfl⟩ := Nat.exists_eq_succ_of_ne_zero (Nat.ne_of_gt h)
  rw [fgets, if_pos rfl]

/-- At the end of the file `fgets` has nothing to read. -/
theorem fgets_nil (n : Nat) : fgets n [] = ([], []) := by
  cases n <;> rfl

/-- Reading cuts the file in two. -/
theorem fgets_join (n : Nat) (content : Bytes) :
    (fgets n content).1 ++ (fgets n content).2 = content := by
  fun_induction fgets n content with
  | case1 content => rfl
  | case2 n => rfl
  | case3 n rest => rfl
  | case4 n c rest hc ih => rw [List.cons_append, ih]

private theorem length_fgets_le (n : Nat) (content : Bytes) : (fgets n content).1.length ≤ n := by
  fun_induction fgets n content with
  | case1 content => exact Nat.le_refl _
  | case2 n => exact Nat.zero_le _
  | case3 n rest => exact Nat.succ_le_succ (Nat.zero_le _)
  | case4 n c rest hc ih => exact Nat.succ_le_succ ih

private theorem fgets_ne_nil {n : Nat} (hn : 0 < n) {content : Bytes} (h : content ≠ []) :
    (fgets n content).1 ≠ [] := by
  fun_cases fgets n content with
  | case1 => exact absurd hn (Nat.lt_irrefl 0)
  | case2 => exact absurd rfl h
  | case3 => exact List.cons_ne_nil _ _
  | case4 => exact List.cons_ne_nil _ _

/-- `fgets` without room reads nothing. -/
theorem fgets_zero (content : Bytes) : fgets 0 content = ([], content) := by
  rw [fgets]

/-- Every call of `fgets` takes something off the file. -/
theorem length_rest_lt {content : Bytes} (h : content ≠ []) :
    (fgets 255 content).2.length < content.length := by
  have hjoin := congrArg List.length (fgets_join 255 content)
  have hpos := List.length_pos_iff.mpr (fgets_ne_nil (n := 255) (by decide) h)
  rw [List.length_append] at hjoin
  omega

/-- More calls than bytes read nothing more. -/
theorem readPieces_enough {fuel : Nat} {content : Bytes} (h : content.length ≤ fuel) :
    readPieces fuel content = pieces content := by
  induction hn : content.length using Nat.strongRecOn generalizing fuel content with
  | ind n ih =>
    rw [pieces]
    cases content with
    | nil => cases fuel <;> rfl
    | cons c rest =>
      have hlt := length_rest_lt (List.cons_ne_nil c rest)
      rw [List.length_cons] at h hlt hn
      obtain ⟨fuel, rfl⟩ := Nat.exists_eq_succ_of_ne_zero (show fuel ≠ 0 by omega)
      rw [List.length_cons, readPieces, readPieces,
        @ih _ (by omega) fuel _ (by omega) rfl,
        @ih _ (by omega) rest.length _ (by omega) rfl]

/-- The first piece is what `fgets` reads, the others are those of the rest. -/
theorem pieces_of_ne_nil {content : Bytes} (h : content ≠ []) :
    pieces content = (fgets 255 content).1 :: pieces (fgets 255 content).2 := by
  have hlt := length_rest_lt h
  cases content with
  | nil => exact absurd rfl h
  | cons c rest =>
    rw [List.length_cons] at hlt
    rw [pieces, List.length_cons, readPieces, readPieces_enough (by omega)]

/-- A piece is not empty and fits the array. -/
theorem mem_pieces {content piece : Bytes} (h : piece ∈ pieces content) :
    piece ≠ [] ∧ piece.length ≤ 255 := by
  induction hn : content.length using Nat.strongRecOn generalizing content with
  | ind n ih =>
    by_cases hnil : content = []
    · rw [hnil] at h
      cases h
    · rw [pieces_of_ne_nil hnil] at h
      rcases List.mem_cons.mp h with rfl | h
      · exact ⟨fgets_ne_nil (by decide) hnil, length_fgets_le 255 content⟩
      · exact ih _ (hn ▸ length_rest_lt hnil) h rfl

/-! ## The file -/

private theorem insertAll_append (m : ConfigMap) (a b : List (Bytes × Bytes)) :
    m.insertAll (a ++ b) = (m.insertAll a).insertAll b := List.foldl_append

/-- The map gets the entries of all pieces, in their order. -/
theorem loadPieces_value (ps : List Bytes) (m : ConfigMap) :
    (loadPieces ps m).value = m.insertAll (ps.filterMap fun p => (loadPiece p).value) := by
  induction ps generalizing m with
  | nil => rfl
  | cons p ps ih =>
    rw [loadPieces, Traced.bind_value, ih, ← insertAll_append, List.filterMap_cons]
    cases (loadPiece p).value <;> rfl

private theorem loadPieces_all {P : Int → Prop} (ps : List Bytes) (m : ConfigMap) :
    (loadPieces ps m).All P ↔ ∀ p ∈ ps, (loadPiece p).All P := by
  induction ps generalizing m with
  | nil => simp only [loadPieces, Traced.all_pure, List.not_mem_nil, false_implies, forall_const]
  | cons p ps ih => rw [loadPieces, Traced.all_bind, ih, List.forall_mem_cons]

/-- `loadFile` stays inside its array exactly when no piece starts with a NUL. -/
theorem loadFile_inBuffer_iff (content : Bytes) :
    (loadFile content).All InBuffer ↔ ∀ p ∈ pieces content, p.head? ≠ some 0 := by
  rw [loadFile, loadPieces_all]
  constructor
  · intro h p hp
    exact (loadPiece_accesses (mem_pieces hp).1 (mem_pieces hp).2).mp (h p hp)
  · intro h p hp
    exact (loadPiece_accesses (mem_pieces hp).1 (mem_pieces hp).2).mpr (h p hp)

private theorem cutLine_of_le {l : Bytes} (h : l.length ≤ 255) : cutLine l = [l] := by
  rw [cutLine, if_pos h]

/-- What a line contributes, when its last bytes and what follows them are read as `hshort`
says. -/
theorem filterMap_pieces_append {tail : Bytes} {after : List (Bytes × Bytes)}
    (hshort : ∀ l : Bytes, 0 ∉ l → 10 ∉ l → l.length ≤ 255 →
      (pieces (l ++ tail)).filterMap (fun p => (loadPiece p).value) =
        (lineEntry l).toList ++ after) {l : Bytes} (hnul : 0 ∉ l) (hl : 10 ∉ l) :
    (pieces (l ++ tail)).filterMap (fun p => (loadPiece p).value) =
      (cutLine l).filterMap lineEntry ++ after := by
  induction hn : l.length using Nat.strongRecOn generalizing l with
  | ind n ih =>
    rw [cutLine]
    by_cases hlen : l.length ≤ 255
    · rw [if_pos hlen, hshort l hnul hl hlen, List.filterMap_cons]
      cases lineEntry l <;> rfl
    · have hnul' : 0 ∉ l.take 255 ∧ 0 ∉ l.drop 255 := by
        rw [← not_or, ← List.mem_append, List.take_append_drop]
        exact hnul
      have hl' : 10 ∉ l.take 255 ∧ 10 ∉ l.drop 255 := by
        rw [← not_or, ← List.mem_append, List.take_append_drop]
        exact hl
      have htake : (l.take 255).length = 255 := List.length_take_of_le (by omega)
      have hread := fgets_append (l.drop 255 ++ tail) hl'.1 (Nat.le_of_eq htake)
      rw [htake, Nat.sub_self, fgets_zero, List.append_nil, ← List.append_assoc,
        List.take_append_drop] at hread
      have hne : l ++ tail ≠ [] := by
        apply List.append_ne_nil_of_left_ne_nil
        rintro rfl
        exact hlen (Nat.zero_le _)
      have hrest := ih _ (by rw [List.length_drop]; omega) hnul'.2 hl'.2 rfl
      rw [if_neg hlen, pieces_of_ne_nil hne, hread, List.filterMap_cons,
        loadPiece_line hnul'.1 hl'.1, hrest, List.filterMap_cons]
      cases lineEntry (l.take 255) <;> rfl

/-- The pieces contribute what the lines do when they are cut. -/
theorem filterMap_pieces {content : Bytes} (hnul : 0 ∉ content) :
    (pieces content).filterMap (fun p => (loadPiece p).value) =
      ((lines content).flatMap cutLine).filterMap lineEntry := by
  induction content using lines_induction with
  | nil => rfl
  | last l hne hl =>
    have hlast := @filterMap_pieces_append [] [] (by
      intro l hnul hl hlen
      rw [List.append_nil, List.append_nil]
      by_cases hnil : l = []
      · rw [hnil]
        rfl
      · have hread := fgets_append [] hl hlen
        rw [List.append_nil, fgets_nil, List.append_nil] at hread
        rw [pieces_of_ne_nil hnil, hread, List.filterMap_cons, loadPiece_line hnul hl]
        cases lineEntry l <;> rfl) l hnul hl
    rw [List.append_nil, List.append_nil] at hlast
    rw [lines_of_not_mem hne hl, hlast, List.flatMap_singleton]
  | line l rest hl ih =>
    rw [List.mem_append, List.mem_cons, not_or, not_or] at hnul
    have hline := @filterMap_pieces_append (10 :: rest)
      ((pieces rest).filterMap fun p => (loadPiece p).value) (by
        intro l hnul hl hlen
        have hread := fgets_append (10 :: rest) hl hlen
        have hne : l ++ 10 :: rest ≠ [] :=
          List.append_ne_nil_of_right_ne_nil _ (List.cons_ne_nil _ _)
        rw [pieces_of_ne_nil hne, hread]
        by_cases hroom : l.length = 255
        · -- A line that fills the array leaves its newline for a piece of its own.
          have hempty : (loadPiece [10]).value = none := by decide
          rw [hroom, Nat.sub_self, fgets_zero, List.append_nil, List.filterMap_cons,
            loadPiece_line hnul hl, pieces_of_ne_nil (List.cons_ne_nil 10 rest),
            fgets_newline (by decide), List.filterMap_cons, hempty]
          cases lineEntry l <;> rfl
        · rw [fgets_newline (by omega), List.filterMap_cons, loadPiece_line_newline hnul]
          cases lineEntry l <;> rfl) l hnul.1 hl
    rw [lines_append_newline rest hl, hline, ih hnul.2.2, List.flatMap_cons,
      List.filterMap_append]

/-- The reader parses the lines as `fgets` cuts them. -/
theorem loadFile_eq_cut {content : Bytes} (hnul : 0 ∉ content) :
    (loadFile content).value = parseLines ((lines content).flatMap cutLine) := by
  rw [loadFile, loadPieces_value, filterMap_pieces hnul, parseLines]

/-! ## Which lines may be cut -/

/-- The pairs that the pieces of a line give, each taken for a line. -/
def piecePairs (l : Bytes) : List (Bytes × Bytes) := (cutLine l).filterMap lineEntry

/-- A line that may be cut: the first pair its pieces give is its own, and none has another
key. -/
structure Harmless (l : Bytes) : Prop where
  first : (piecePairs l).head? = lineEntry l
  keys : ∀ e ∈ piecePairs l, ∀ e' ∈ lineEntry l, e.1 = e'.1

/-- A line that the reader does not cut. -/
theorem harmless_of_le {l : Bytes} (h : l.length ≤ 255) : Harmless l := by
  have hpairs : piecePairs l = (lineEntry l).toList := by
    rw [piecePairs, cutLine_of_le h, List.filterMap_cons]
    cases lineEntry l <;> rfl
  constructor
  · rw [hpairs]
    cases lineEntry l <;> rfl
  · intro e he e' he'
    rw [hpairs, Option.mem_toList] at he
    rw [Option.mem_unique he he']

private theorem cutLine_subset {l piece : Bytes} (h : piece ∈ cutLine l) : piece ⊆ l := by
  induction hn : l.length using Nat.strongRecOn generalizing l with
  | ind n ih =>
    rw [cutLine] at h
    split at h
    · rw [List.mem_singleton.mp h]
      exact List.Subset.refl l
    · rcases List.mem_cons.mp h with rfl | h
      · exact List.take_subset 255 l
      · have hrest := ih _ (by rw [List.length_drop]; omega) h rfl
        exact List.Subset.trans hrest (List.drop_subset 255 l)

private theorem lineEntry_of_not_mem {l : Bytes} (h : 61 ∉ l) : lineEntry l = none := by
  rw [lineEntry]
  refine if_neg fun hcond => h ?_
  exact (List.takeWhile_prefix _).subset hcond.1

/-- A line whose comment starts in its first piece, with no `=` in the others. -/
theorem harmless_of_comment {l : Bytes} (hhash : 35 ∈ l.take 255) (hequals : 61 ∉ l.drop 255) :
    Harmless l := by
  by_cases hlen : l.length ≤ 255
  · exact harmless_of_le hlen
  · have hfirst : lineEntry (l.take 255) = lineEntry l := by
      have htext := @List.takeWhile_append _ (fun c => decide (c ≠ 35)) (l.take 255) (l.drop 255)
      have hstop : ¬ ((l.take 255).takeWhile fun c => decide (c ≠ 35)).length =
          (l.take 255).length := by
        intro hall
        have hself := (List.takeWhile_prefix fun c => decide (c ≠ 35)).eq_of_length hall
        exact absurd (List.takeWhile_eq_self_iff.mp hself 35 hhash) (by decide)
      rw [List.take_append_drop, if_neg hstop] at htext
      rw [lineEntry, lineEntry, htext]
    have hrest : (cutLine (l.drop 255)).filterMap lineEntry = [] := by
      refine List.filterMap_eq_nil_iff.mpr fun piece hpiece => ?_
      exact lineEntry_of_not_mem fun hin => hequals (cutLine_subset hpiece hin)
    have hpairs : piecePairs l = (lineEntry l).toList := by
      rw [piecePairs, cutLine, if_neg hlen, List.filterMap_cons, hfirst, hrest]
      cases lineEntry l <;> rfl
    constructor
    · rw [hpairs]
      cases lineEntry l <;> rfl
    · intro e he e' he'
      rw [hpairs, Option.mem_toList] at he
      rw [Option.mem_unique he he']

open SortedMap in
/-- In other words, a lookup finds the same in the pieces as in the line. -/
theorem harmless_iff_lookup {l : Bytes} :
    Harmless l ↔ ∀ k, lookup k (piecePairs l) = lookup k (lineEntry l).toList := by
  constructor
  · rintro ⟨hfirst, hkeys⟩ k
    cases hpairs : piecePairs l with
    | nil =>
      rw [hpairs] at hfirst
      rw [← hfirst]
      rfl
    | cons e rest =>
      rw [hpairs, List.head?_cons] at hfirst
      rw [hpairs, ← hfirst] at hkeys
      rw [← hfirst, Option.toList_some, lookup, lookup]
      split
      · rfl
      · next hk =>
        refine lookup_eq_none fun e' he' hk' => hk ?_
        rw [← hk']
        exact (hkeys e' (List.mem_cons_of_mem _ he') e rfl).symm
  · intro h
    cases hpairs : piecePairs l with
    | nil =>
      rw [hpairs] at h
      cases hentry : lineEntry l with
      | none => exact ⟨by rw [hpairs, hentry]; rfl, fun e he => by rw [hpairs] at he; cases he⟩
      | some e =>
        have hnone := h e.1
        rw [hentry, Option.toList_some, lookup, lookup, if_pos rfl] at hnone
        cases hnone
    | cons e rest =>
      rw [hpairs] at h
      have hown := h e.1
      rw [lookup, if_pos rfl] at hown
      have hmem := mem_of_lookup hown.symm
      rw [Option.mem_toList] at hmem
      have hentry : lineEntry l = some e := hmem
      refine ⟨by rw [hpairs, hentry, List.head?_cons], ?_⟩
      intro e' he' e'' he''
      rw [hentry] at he'' h
      cases he''
      by_contra hne
      rw [hpairs] at he'
      have hother := h e'.1
      rw [Option.toList_some, @lookup_eq_none _ _ _ e'.1 [e]
        fun e'' he'' => (List.mem_singleton.mp he'') ▸ Ne.symm hne] at hother
      exact ne_of_lookup_eq_none hother he' rfl

open SortedMap in
/-- A file all of whose lines may be cut is parsed as the reference parses it. -/
theorem loadFile_eq_reference_of_harmless {content : Bytes} (hnul : 0 ∉ content)
    (h : ∀ l ∈ lines content, Harmless l) : (loadFile content).value = referenceParse content := by
  rw [loadFile_eq_cut hnul, referenceParse, parseLines, parseLines, insertAll_empty_eq_iff]
  intro k
  generalize lines content = ls at h
  induction ls with
  | nil => rfl
  | cons l ls ih =>
    have hline := harmless_iff_lookup.mp (h l List.mem_cons_self) k
    rw [List.flatMap_cons, List.filterMap_append, lookup_append,
      ih fun l' hl' => h l' (List.mem_cons_of_mem _ hl'), List.filterMap_cons]
    rw [piecePairs] at hline
    rw [hline]
    cases lineEntry l with
    | none => rfl
    | some e =>
      rw [Option.toList_some, ← lookup_append]
      rfl

/-- A file without NULs and without long lines is read as the reference reads it. -/
theorem loadFile_eq_reference {content : Bytes} (hnul : 0 ∉ content)
    (hshort : ∀ l ∈ lines content, l.length ≤ 255) :
    (loadFile content).value = referenceParse content :=
  loadFile_eq_reference_of_harmless hnul fun l hl => harmless_of_le (hshort l hl)

/-! ## Pairs -/

/-- Not empty, and without a blank at either end. -/
structure Trimmed (s : Bytes) : Prop where
  ne_nil : s ≠ []
  head : ∀ c ∈ s.head?, isBlank c = false
  last : ∀ c ∈ s.getLast?, isBlank c = false

private theorem trim_eq_self {s : Bytes} (h : Trimmed s) : trim s = s := by
  have hfront : s.dropWhile isBlank = s := by
    cases s with
    | nil => rfl
    | cons c s =>
      apply List.dropWhile_cons_of_neg
      rw [h.head c rfl]
      exact Bool.false_ne_true
  rw [trim, hfront, List.rdropWhile_eq_self_iff]
  intro hne
  rw [h.last _ (List.getLast?_eq_some_getLast hne)]
  exact Bool.false_ne_true

/-- The two parts of a pair with `=` between them. -/
def lineText (e : Bytes × Bytes) : Bytes := e.1 ++ 61 :: e.2

private theorem takeWhile_append_stop {p : UInt8 → Bool} {a b : Bytes} {d : UInt8}
    (h : ∀ c ∈ a, p c = true) (hd : p d = false) :
    (a ++ d :: b).takeWhile p = a ∧ (a ++ d :: b).dropWhile p = d :: b := by
  have hstop : ¬ p d = true := by
    rw [hd]
    exact Bool.false_ne_true
  constructor
  · rw [List.takeWhile_append_of_pos h, List.takeWhile_cons_of_neg hstop, List.append_nil]
  · rw [List.dropWhile_append_of_pos h, List.dropWhile_cons_of_neg hstop]

private theorem takeWhile_lineText {e : Bytes × Bytes} (h : 61 ∉ e.1) :
    (lineText e).takeWhile (· ≠ 61) = e.1 ∧ (lineText e).dropWhile (· ≠ 61) = 61 :: e.2 := by
  apply takeWhile_append_stop
  · intro c hc
    rw [decide_eq_true_eq]
    rintro rfl
    exact h hc
  · rfl

/-- A pair of trimmed texts without a comment sign is read back. -/
theorem lineEntry_lineText {e : Bytes × Bytes} (hkey : Trimmed e.1) (hvalue : Trimmed e.2)
    (heq : 61 ∉ e.1) (hhash : 35 ∉ lineText e) : lineEntry (lineText e) = some e := by
  have hwhole : (lineText e).takeWhile (· ≠ 35) = lineText e := by
    apply List.takeWhile_eq_self_iff.mpr
    intro c hc
    rw [decide_eq_true_eq]
    rintro rfl
    exact hhash hc
  obtain ⟨hfront, hback⟩ := takeWhile_lineText heq
  have hmem : 61 ∈ lineText e := List.mem_append_right _ List.mem_cons_self
  rw [lineEntry, hwhole]
  simp only [hfront, hback, List.drop_succ_cons, List.drop_zero, trim_eq_self hkey,
    trim_eq_self hvalue, hmem, hkey.ne_nil, hvalue.ne_nil, ne_eq, not_false_eq_true, and_self,
    if_true]

/-- A text of one character that is no blank has no blanks at its ends. -/
theorem trimmed_replicate (n : Nat) {c : UInt8} (h : isBlank c = false) :
    Trimmed (List.replicate (n + 1) c) := by
  refine ⟨List.cons_ne_nil _ _, ?_, ?_⟩
  · intro d hd
    cases hd
    exact h
  · intro d hd
    rw [List.eq_of_mem_replicate (List.mem_of_getLast? hd)]
    exact h

/-- `k=` and a value of `n + 1` letters. -/
def longPair (n : Nat) : Bytes × Bytes := ([107], List.replicate (n + 1) 118)

/-- The sample pair is written with three characters only. -/
theorem not_mem_longPair {c : UInt8} (n : Nat) (hk : c ≠ 107) (he : c ≠ 61) (hv : c ≠ 118) :
    c ∉ lineText (longPair n) := by
  intro hc
  rcases List.mem_append.mp hc with hc | hc
  · exact hk (List.mem_singleton.mp hc)
  · rcases List.mem_cons.mp hc with hc | hc
    · exact he hc
    · exact hv (List.eq_of_mem_replicate hc)

private theorem lineEntry_longPair (n : Nat) :
    lineEntry (lineText (longPair n)) = some (longPair n) := by
  apply lineEntry_lineText
  · exact trimmed_replicate 0 (by decide)
  · exact trimmed_replicate n (by decide)
  · exact List.not_mem_cons_of_ne_of_not_mem (by decide) List.not_mem_nil
  · exact not_mem_longPair n (by decide) (by decide) (by decide)

/-- The last letter of a line of 256 bytes is read as a line of its own. -/
theorem loadFile_longPair :
    (loadFile (lineText (longPair 253))).value.entries = [longPair 252] ∧
      (referenceParse (lineText (longPair 253))).entries = [longPair 253] := by
  have hnl : ∀ n, 10 ∉ lineText (longPair n) :=
    fun n => not_mem_longPair n (by decide) (by decide) (by decide)
  have hnul : ∀ n, 0 ∉ lineText (longPair n) :=
    fun n => not_mem_longPair n (by decide) (by decide) (by decide)
  have hlen : (lineText (longPair 252)).length = 255 := by
    simp only [lineText, longPair, List.length_append, List.length_cons, List.length_nil,
      List.length_replicate]
  have hsplit : lineText (longPair 253) = lineText (longPair 252) ++ [118] := by
    have hlast : (longPair 253).2 = (longPair 252).2 ++ [118] := List.replicate_succ'
    rw [lineText, lineText, List.append_assoc, List.cons_append, ← hlast]
    rfl
  have hne : ∀ n, lineText (longPair n) ≠ [] := fun n => List.cons_ne_nil _ _
  have hread := fgets_append [118] (hnl 252) (Nat.le_of_eq hlen)
  rw [hlen, Nat.sub_self, ← hsplit, fgets_zero, List.append_nil] at hread
  have hrest : (pieces [118]).filterMap (fun p => (loadPiece p).value) = [] := by decide
  constructor
  · rw [loadFile, loadPieces_value, pieces_of_ne_nil (hne 253), hread, List.filterMap_cons,
      loadPiece_line (hnul 252) (hnl 252), lineEntry_longPair, hrest]
    rfl
  · rw [referenceParse, parseLines, lines_of_not_mem (hne 253) (hnl 253), List.filterMap_cons,
      lineEntry_longPair]
    rfl

/-! ## When the two agree -/

/-- 255 is the greatest line length up to which every file without a NUL is parsed as the
reference parses it. -/
theorem loadFile_eq_reference_iff (n : Nat) :
    (∀ text, 0 ∉ text → (∀ l ∈ lines text, l.length ≤ n) →
      (loadFile text).value = referenceParse text) ↔ n ≤ 255 := by
  constructor
  · intro hall
    by_contra hlong
    obtain ⟨hcode, href⟩ := loadFile_longPair
    have hnl : 10 ∉ lineText (longPair 253) :=
      not_mem_longPair 253 (by decide) (by decide) (by decide)
    have hne : lineText (longPair 253) ≠ [] := List.cons_ne_nil _ _
    have heq := hall (lineText (longPair 253))
      (not_mem_longPair 253 (by decide) (by decide) (by decide)) (by
        intro l hl
        rw [lines_of_not_mem hne hnl] at hl
        rw [List.mem_singleton.mp hl]
        simp only [lineText, longPair, List.length_append, List.length_cons, List.length_nil,
          List.length_replicate]
        omega)
    rw [heq, href, List.singleton_inj] at hcode
    have hlen := congrArg (fun e : Bytes × Bytes => e.2.length) hcode
    simp only [longPair, List.length_replicate] at hlen
    omega
  · intro hn text hnul hshort
    exact loadFile_eq_reference hnul fun l hl => Nat.le_trans (hshort l hl) hn

/-- The line gives the key, as a whole or in one of its pieces. -/
def Gives (l k : Bytes) : Prop := ∃ v, (k, v) ∈ piecePairs l ∨ lineEntry l = some (k, v)

open SortedMap in
/-- Lines that do not give a key may be left out of its lookup, in either reading. -/
theorem lookup_of_not_gives {ls : List Bytes} {k : Bytes} (h : ∀ l ∈ ls, ¬ Gives l k) :
    lookup k (ls.flatMap piecePairs) = none ∧ lookup k (ls.filterMap lineEntry) = none := by
  constructor
  · refine lookup_eq_none fun e he hk => ?_
    obtain ⟨l, hl, he⟩ := List.mem_flatMap.mp he
    exact h l hl ⟨e.2, Or.inl (hk ▸ he)⟩
  · refine lookup_eq_none fun e he hk => ?_
    obtain ⟨l, hl, he⟩ := List.mem_filterMap.mp he
    exact h l hl ⟨e.2, Or.inr (hk ▸ he)⟩

open SortedMap in
/-- A line that may not be cut shows in every file of which no other line gives its keys. -/
theorem loadFile_ne_reference {content l : Bytes} {before after : List Bytes} (hnul : 0 ∉ content)
    (hlines : lines content = before ++ l :: after) (hl : ¬ Harmless l)
    (hapart : ∀ l' ∈ before ++ after, ∀ k, Gives l k → ¬ Gives l' k) :
    (loadFile content).value ≠ referenceParse content := by
  intro hsame
  rw [loadFile_eq_cut hnul, referenceParse, parseLines, parseLines, insertAll_empty_eq_iff,
    hlines] at hsame
  refine hl (harmless_iff_lookup.mpr fun k => ?_)
  by_cases hk : Gives l k
  · have hothers : ∀ l' ∈ before ++ after, ¬ Gives l' k := fun l' hl' => hapart l' hl' k hk
    obtain ⟨hbefore, hbefore'⟩ :=
      lookup_of_not_gives fun l' hl' => hothers l' (List.mem_append_left _ hl')
    obtain ⟨hafter, hafter'⟩ :=
      lookup_of_not_gives fun l' hl' => hothers l' (List.mem_append_right _ hl')
    have hcut : ((before ++ l :: after).flatMap cutLine).filterMap lineEntry =
        before.flatMap piecePairs ++ (piecePairs l ++ after.flatMap piecePairs) := by
      rw [List.filterMap_flatMap, List.flatMap_append, List.flatMap_cons]
      rfl
    have hwhole : (before ++ l :: after).filterMap lineEntry =
        before.filterMap lineEntry ++ ((lineEntry l).toList ++ after.filterMap lineEntry) := by
      rw [List.filterMap_append, List.filterMap_cons]
      cases lineEntry l <;> rfl
    have hkey := hsame k
    rw [hcut, hwhole, lookup_append, lookup_append, lookup_append, lookup_append, hbefore,
      hbefore', hafter, hafter', Option.none_or, Option.none_or, Option.or_none,
      Option.or_none] at hkey
    exact hkey
  · rw [lookup_eq_none fun e he hk' => hk ⟨e.2, Or.inl (hk' ▸ he)⟩]
    refine (lookup_eq_none fun e he hk' => hk ⟨e.2, Or.inr ?_⟩).symm
    rw [← hk']
    exact Option.mem_toList.mp he

/-- The reader stays inside its array exactly when no piece starts with a NUL. It parses a file
without a NUL as the reference does when each line of more than 255 bytes may be cut, as a
comment with no `=` in its later pieces may; and it does not when a line may not be cut and no
other line gives its keys. -/
theorem loadFile_matches (content : Bytes) :
    ((loadFile content).All InBuffer ↔ ∀ p ∈ pieces content, p.head? ≠ some 0) ∧
      (0 ∉ content → (∀ l ∈ lines content, 255 < l.length → Harmless l) →
        (loadFile content).value = referenceParse content) ∧
      (0 ∉ content → ∀ before l after, lines content = before ++ l :: after → ¬ Harmless l →
        (∀ l' ∈ before ++ after, ∀ k, Gives l k → ¬ Gives l' k) →
          (loadFile content).value ≠ referenceParse content) ∧
      ∀ l : Bytes, 35 ∈ l.take 255 → 61 ∉ l.drop 255 → Harmless l := by
  refine ⟨loadFile_inBuffer_iff content, fun hnul h => ?_,
    fun hnul _ _ _ => loadFile_ne_reference hnul, fun _ => harmless_of_comment⟩
  refine loadFile_eq_reference_of_harmless hnul fun l hl => ?_
  by_cases hlen : l.length ≤ 255
  · exact harmless_of_le hlen
  · exact h l hl (Nat.lt_of_not_le hlen)

/-- A comment of 255 bytes with `a=b` behind them. -/
def longComment : Bytes := 35 :: (List.replicate 254 120 ++ [97, 61, 98])

/-- The end of a long comment becomes an entry, and a line that starts with a NUL is left at the
front. -/
theorem comment_becomes_entry :
    (loadFile longComment).value.entries = [([97], [98])] ∧
      (referenceParse longComment).entries = [] ∧ ¬ (loadFile [0, 10]).All InBuffer := by
  have hother : ∀ c : UInt8, c ≠ 35 → c ≠ 120 → c ∉ 35 :: List.replicate 254 (120 : UInt8) := by
    intro c hhash hletter
    rw [List.mem_cons, not_or]
    exact ⟨hhash, fun h => hletter (List.eq_of_mem_replicate h)⟩
  have hnl := hother 10 (by decide) (by decide)
  have hnul := hother 0 (by decide) (by decide)
  have hlen : (35 :: List.replicate 254 (120 : UInt8)).length = 255 := by
    rw [List.length_cons, List.length_replicate]
  have hcomment : ∀ rest, lineEntry (35 :: rest) = none := fun rest => rfl
  have hread := fgets_append [97, 61, 98] hnl (Nat.le_of_eq hlen)
  rw [hlen, Nat.sub_self, fgets_zero, List.append_nil] at hread
  change fgets 255 longComment = _ at hread
  have hne : longComment ≠ [] := List.cons_ne_nil _ _
  have hrest : (pieces [97, 61, 98]).filterMap (fun p => (loadPiece p).value) = [([97], [98])] := by
    decide
  have hnl' : 10 ∉ longComment := by
    rw [longComment, ← List.cons_append, List.mem_append, not_or]
    exact ⟨hnl, by decide⟩
  refine ⟨?_, ?_, ?_⟩
  · rw [loadFile, loadPieces_value, pieces_of_ne_nil hne, hread, List.filterMap_cons,
      loadPiece_line hnul hnl, hcomment, hrest]
    rfl
  · rw [referenceParse, parseLines, lines_of_not_mem hne hnl', List.filterMap_cons, longComment,
      hcomment]
    rfl
  · rw [loadFile_inBuffer_iff]
    decide

end ChatRoom.Base
