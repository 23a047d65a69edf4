import ChatRoom.Core.Chunks
import ChatRoom.Base.ConfigGrammar

/-!
# Saving and loading again

What a file without NULs loads to can be written as lines and read back. But `writeFile`
puts each pair into 127 bytes: a pair of 127 or more loses its newline and runs into the
pair behind it, and a longer one its end too. Nor does it look at the result of `fclose`,
whose flush may leave the end of the file out. So the file loads to the map that was saved
exactly when every pair takes up to 126 bytes, where the last may take 127, and all that was
written is in it but perhaps the last newline.
-/

namespace ChatRoom.Base

open ChatRoom.Core

/-- A pair that its line is read back as. -/
structure Storable (e : Bytes × Bytes) : Prop where
  key : Trimmed e.1
  value : Trimmed e.2
  no_equals : 61 ∉ e.1
  no_hash : 35 ∉ lineText e
  no_newline : 10 ∉ lineText e
  no_nul : 0 ∉ lineText e

private theorem Storable.lineEntry_eq {e : Bytes × Bytes} (h : Storable e) :
    lineEntry (lineText e) = some e :=
  lineEntry_lineText h.key h.value h.no_equals h.no_hash

/-! ## What is loaded can be stored -/

private theorem mem_of_mem_trim {s : Bytes} {c : UInt8} (h : c ∈ trim s) : c ∈ s :=
  (List.dropWhile_suffix _).subset ((List.rdropWhile_prefix _ _).subset h)

private theorem length_trim_le (s : Bytes) : (trim s).length ≤ s.length :=
  Nat.le_trans (List.rdropWhile_prefix _ _).length_le (List.dropWhile_suffix _).length_le

private theorem trimmed_trim {s : Bytes} (h : trim s ≠ []) : Trimmed (trim s) where
  ne_nil := h
  head := by
    have hdrop : s.dropWhile isBlank ≠ [] := by
      intro hnil
      exact h (by rw [trim, hnil, List.rdropWhile_nil])
    intro c hc
    obtain ⟨rest, hrest⟩ := List.rdropWhile_prefix isBlank (s.dropWhile isBlank)
    have hfirst : (s.dropWhile isBlank).head? = some c := by
      rw [← hrest]
      exact (List.head?_append_of_ne_nil _ h).trans hc
    have hnot := List.head_dropWhile_not isBlank hdrop
    rw [List.head?_eq_some_head hdrop, Option.some.injEq] at hfirst
    rw [← hfirst]
    exact hnot
  last := by
    intro c hc
    have hlast := List.rdropWhile_last_not isBlank (s.dropWhile isBlank) h
    rw [List.getLast?_eq_some_getLast h] at hc
    cases hc
    exact Bool.eq_false_iff.mpr hlast

/-- A pair made of parts of a line around an `=`. -/
structure FoundIn (line : Bytes) (e : Bytes × Bytes) : Prop where
  key : Trimmed e.1
  value : Trimmed e.2
  no_equals : 61 ∉ e.1
  no_hash : 35 ∉ lineText e
  subset : ∀ c ∈ lineText e, c ∈ line
  length_le : (lineText e).length ≤ line.length

private theorem not_mem_takeWhile_ne (c : UInt8) (s : Bytes) :
    c ∉ s.takeWhile fun d => decide (d ≠ c) := by
  intro hin
  have hne := List.mem_takeWhile_imp hin
  rw [decide_eq_true_eq] at hne
  exact hne rfl

/-- The parts around the first `=` are no longer than the text, and made of it. -/
theorem split_around {text front back : Bytes} (hsplit : front ++ back = text) (hmem : 61 ∈ text)
    (hfirst : 61 ∉ front) :
    (∀ c ∈ lineText (trim front, trim (back.drop 1)), c ∈ text) ∧
      (lineText (trim front, trim (back.drop 1))).length ≤ text.length := by
  constructor
  · intro c hc
    rw [← hsplit]
    rcases List.mem_append.mp hc with hc | hc
    · exact List.mem_append_left _ (mem_of_mem_trim hc)
    · rcases List.mem_cons.mp hc with rfl | hc
      · rw [hsplit]
        exact hmem
      · exact List.mem_append_right _ (List.mem_of_mem_drop (mem_of_mem_trim hc))
  · have hback : 0 < back.length := by
      apply List.length_pos_iff.mpr
      rintro rfl
      rw [List.append_nil] at hsplit
      exact hfirst (hsplit ▸ hmem)
    have hkey := length_trim_le front
    have hvalue := length_trim_le (back.drop 1)
    have hlen := congrArg List.length hsplit
    rw [List.length_drop] at hvalue
    rw [List.length_append] at hlen
    simp only [lineText, List.length_append, List.length_cons]
    omega

private theorem foundIn_of_lineEntry {line : Bytes} {e : Bytes × Bytes}
    (h : lineEntry line = some e) :
    FoundIn line e := by
  have htext := List.takeWhile_prefix (l := line) (fun c => decide (c ≠ 35))
  have hnohash := not_mem_takeWhile_ne 35 line
  rw [lineEntry] at h
  generalize line.takeWhile (fun c => decide (c ≠ 35)) = text at h htext hnohash
  split at h
  · next hcond =>
    obtain ⟨hmem, hkey, hvalue⟩ := hcond
    cases h
    have hfirst := not_mem_takeWhile_ne 61 text
    obtain ⟨hsub, hlen⟩ := split_around List.takeWhile_append_dropWhile hmem hfirst
    exact ⟨trimmed_trim hkey, trimmed_trim hvalue, fun hin => hfirst (mem_of_mem_trim hin),
      fun hin => hnohash (hsub _ hin), fun c hc => htext.subset (hsub c hc),
      Nat.le_trans hlen htext.length_le⟩
  · cases h

/-- Each piece is a line with or without its newline. -/
theorem fgets_line (n : Nat) (content : Bytes) :
    ∃ line, 10 ∉ line ∧ ((fgets n content).1 = line ∨ (fgets n content).1 = line ++ [10]) := by
  fun_induction fgets n content with
  | case1 content => exact ⟨[], List.not_mem_nil, Or.inl rfl⟩
  | case2 n => exact ⟨[], List.not_mem_nil, Or.inl rfl⟩
  | case3 n rest => exact ⟨[], List.not_mem_nil, Or.inr rfl⟩
  | case4 n c rest hc ih =>
    obtain ⟨line, hline, hread⟩ := ih
    refine ⟨c :: line, ?_, ?_⟩
    · rw [List.mem_cons, not_or]
      exact ⟨Ne.symm hc, hline⟩
    · rcases hread with hread | hread
      · exact Or.inl (by rw [hread])
      · exact Or.inr (by rw [hread, List.cons_append])

private theorem mem_pieces_line {content piece : Bytes} (hnul : 0 ∉ content)
    (h : piece ∈ pieces content) :
    ∃ line, 10 ∉ line ∧ 0 ∉ line ∧ (loadPiece piece).value = lineEntry line := by
  induction hn : content.length using Nat.strongRecOn generalizing content with
  | ind n ih =>
    by_cases hnil : content = []
    · rw [hnil] at h
      cases h
    · have hjoin := fgets_join 255 content
      have hnul' := hnul
      rw [← hjoin, List.mem_append, not_or] at hnul'
      rw [pieces_of_ne_nil hnil] at h
      rcases List.mem_cons.mp h with rfl | h
      · obtain ⟨line, hline, hread⟩ := fgets_line 255 content
        rcases hread with hread | hread
        · rw [hread] at hnul' ⊢
          exact ⟨line, hline, hnul'.1, loadPiece_line hnul'.1 hline⟩
        · rw [hread, List.mem_append, not_or] at hnul'
          rw [hread]
          exact ⟨line, hline, hnul'.1.1, loadPiece_line_newline hnul'.1.1⟩
      · exact ih _ (hn ▸ length_rest_lt hnil) hnul'.2 h rfl

private theorem storable_of_mem_loadFile {content : Bytes} (hnul : 0 ∉ content) {e : Bytes × Bytes}
    (h : e ∈ (loadFile content).value.entries) : Storable e := by
  rw [loadFile, loadPieces_value] at h
  rcases SortedMap.mem_insertAll h with h | h
  · cases h
  · obtain ⟨piece, hpiece, hentry⟩ := List.mem_filterMap.mp h
    obtain ⟨line, hnl, hnul', hline⟩ := mem_pieces_line hnul hpiece
    have hfound := foundIn_of_lineEntry (hline ▸ hentry)
    exact ⟨hfound.key, hfound.value, hfound.no_equals, hfound.no_hash,
      fun hin => hnl (hfound.subset _ hin), fun hin => hnul' (hfound.subset _ hin)⟩

/-! ## How many pieces a saved file has -/

/-- What one turn of `writeFile` writes: up to 127 bytes, with a newline at the end or none. -/
structure Segment (s : Bytes) : Prop where
  ne_nil : s ≠ []
  length_le : s.length ≤ 127
  newline : 10 ∉ s.dropLast

private theorem Segment.cases {s : Bytes} (h : Segment s) :
    (∃ l, 10 ∉ l ∧ s = l ++ [10]) ∨ 10 ∉ s := by
  rcases List.eq_nil_or_concat s with hnil | ⟨l, c, hs⟩
  · exact absurd hnil h.ne_nil
  · rw [List.concat_eq_append] at hs
    subst hs
    have hl := h.newline
    rw [List.dropLast_concat] at hl
    by_cases hc : c = 10
    · exact Or.inl ⟨l, hl, by rw [hc]⟩
    · right
      rw [List.mem_append, List.mem_singleton, not_or]
      exact ⟨hl, Ne.symm hc⟩

private theorem Segment.drop {s : Bytes} {n : Nat} (h : Segment s) (hn : n < s.length) :
    Segment (s.drop n) where
  ne_nil := by
    apply List.length_pos_iff.mp
    rw [List.length_drop]
    omega
  length_le := by
    rw [List.length_drop]
    have := h.length_le
    omega
  newline := by
    have hswap : (s.drop n).dropLast = s.dropLast.drop n := by
      rw [List.dropLast_eq_take, List.dropLast_eq_take, List.drop_take, List.length_drop]
      congr 1
      omega
    rw [hswap]
    intro hin
    exact h.newline (List.mem_of_mem_drop hin)

/-- One call of `fgets` leaves segments; with room for a whole one it takes up at least one. -/
theorem fgets_segments {segs : List Bytes} (hsegs : ∀ s ∈ segs, Segment s) (n : Nat) :
    ∃ segs' : List Bytes, (∀ s ∈ segs', Segment s) ∧ (fgets n segs.flatten).2 = segs'.flatten ∧
      segs'.length ≤ segs.length ∧ (127 ≤ n → segs ≠ [] → segs'.length < segs.length) := by
  induction segs generalizing n with
  | nil =>
    rw [List.flatten_nil, fgets_nil]
    exact ⟨[], hsegs, rfl, Nat.le_refl _, fun _ h => absurd rfl h⟩
  | cons s segs ih =>
    have hs := hsegs s List.mem_cons_self
    have hrest : ∀ s' ∈ segs, Segment s' := fun s' hs' => hsegs s' (List.mem_cons_of_mem _ hs')
    rw [List.flatten_cons, List.length_cons]
    by_cases hroom : s.length ≤ n
    · rcases hs.cases with ⟨l, hl, rfl⟩ | hl
      · rw [List.length_append, List.length_singleton] at hroom
        rw [List.append_assoc, fgets_append _ hl (by omega), List.singleton_append,
          fgets_newline (by omega)]
        exact ⟨segs, hrest, rfl, Nat.le_succ _, fun _ _ => Nat.lt_succ_self _⟩
      · obtain ⟨segs', hsegs', hread, hle, -⟩ := ih hrest (n - s.length)
        rw [fgets_append _ hl hroom]
        exact ⟨segs', hsegs', hread, Nat.le_succ_of_le hle, fun _ _ => Nat.lt_succ_of_le hle⟩
    · have hshort := hs.length_le
      have htake : 10 ∉ s.take n := by
        intro hin
        apply hs.newline
        rw [List.dropLast_eq_take]
        exact (List.take_prefix_take_left (by omega)).subset hin
      have hlen : (s.take n).length = n := by
        rw [List.length_take]
        omega
      have hread := fgets_append (s.drop n ++ segs.flatten) htake (Nat.le_of_eq hlen)
      rw [hlen, Nat.sub_self, fgets_zero, ← List.append_assoc, List.take_append_drop] at hread
      refine ⟨s.drop n :: segs, ?_, ?_, Nat.le_refl _, by omega⟩
      · intro s' hs'
        rcases List.mem_cons.mp hs' with rfl | hs'
        · exact hs.drop (by omega)
        · exact hrest s' hs'
      · rw [hread, List.flatten_cons]

private theorem length_pieces_le {segs : List Bytes} (hsegs : ∀ s ∈ segs, Segment s) :
    (pieces segs.flatten).length ≤ segs.length := by
  induction hn : segs.length using Nat.strongRecOn generalizing segs with
  | ind n ih =>
    by_cases hnil : segs = []
    · rw [hnil]
      exact Nat.zero_le _
    · have hne : segs.flatten ≠ [] := by
        cases segs with
        | nil => exact absurd rfl hnil
        | cons s segs =>
          exact List.append_ne_nil_of_left_ne_nil (hsegs s List.mem_cons_self).ne_nil _
      obtain ⟨segs', hsegs', hread, -, hlt⟩ := fgets_segments hsegs 255
      have hshort := hlt (by decide) hnil
      have hrest := ih segs'.length (hn ▸ hshort) hsegs' rfl
      rw [pieces_of_ne_nil hne, hread, List.length_cons]
      omega

/-- A segment without a newline and the one behind it are read in one piece. -/
theorem length_pieces_lt {segs : List Bytes} (hsegs : ∀ s ∈ segs, Segment s)
    (hopen : ∃ s ∈ segs.dropLast, 10 ∉ s) : (pieces segs.flatten).length < segs.length := by
  induction segs with
  | nil =>
    obtain ⟨s, hs, -⟩ := hopen
    cases hs
  | cons s segs ih =>
    have hs := hsegs s List.mem_cons_self
    have hshort := hs.length_le
    have hrest : ∀ s' ∈ segs, Segment s' := fun s' hs' => hsegs s' (List.mem_cons_of_mem _ hs')
    have hne : segs ≠ [] := by
      rintro rfl
      obtain ⟨s', hs', -⟩ := hopen
      cases hs'
    have hflat : (s :: segs).flatten ≠ [] := List.append_ne_nil_of_left_ne_nil hs.ne_nil _
    rw [pieces_of_ne_nil hflat, List.length_cons, List.length_cons, List.flatten_cons]
    rcases hs.cases with ⟨l, hl, rfl⟩ | hl
    · have hlater : ∃ s' ∈ segs.dropLast, 10 ∉ s' := by
        obtain ⟨s', hs', hnot⟩ := hopen
        rw [List.dropLast_cons_of_ne_nil hne] at hs'
        rcases List.mem_cons.mp hs' with rfl | hs'
        · exact absurd (List.mem_append_right _ (List.mem_singleton.mpr rfl)) hnot
        · exact ⟨s', hs', hnot⟩
      have hcount := ih hrest hlater
      rw [List.length_append, List.length_singleton] at hshort
      rw [List.append_assoc, fgets_append _ hl (by omega), List.singleton_append,
        fgets_newline (by omega)]
      exact Nat.succ_lt_succ hcount
    · obtain ⟨segs', hsegs', hread, -, hlt⟩ := fgets_segments hrest (255 - s.length)
      have hfewer := hlt (by omega) hne
      have hcount := length_pieces_le hsegs'
      rw [fgets_append _ hl (by omega), hread]
      omega

/-! ## The saved file -/

private theorem Storable.szPaire_eq {e : Bytes × Bytes} (h : Storable e) :
    CConfigFileReader.szPaire e = (lineText e ++ [10]).take 127 := by
  have hnul := h.no_nul
  rw [lineText, List.mem_append, List.mem_cons, not_or, not_or] at hnul
  rw [CConfigFileReader.szPaire, cstr_of_not_mem hnul.1, cstr_of_not_mem hnul.2.2, lineText,
    List.append_assoc, List.append_assoc, List.append_assoc, List.singleton_append,
    List.cons_append]

private theorem Storable.szPaire_short {e : Bytes × Bytes} (h : Storable e)
    (hlen : (lineText e).length ≤ 126) : CConfigFileReader.szPaire e = lineText e ++ [10] := by
  rw [h.szPaire_eq, List.take_of_length_le]
  rw [List.length_append, List.length_singleton]
  omega

private theorem Storable.szPaire_long {e : Bytes × Bytes} (h : Storable e)
    (hlen : 127 ≤ (lineText e).length) :
    CConfigFileReader.szPaire e = (lineText e).take 127 := by
  rw [h.szPaire_eq, List.take_append_of_le_length hlen]

private theorem Storable.not_mem_take {e : Bytes × Bytes} (h : Storable e) (n : Nat) :
    10 ∉ (lineText e).take n := fun hin => h.no_newline (List.mem_of_mem_take hin)

private theorem Storable.segment {e : Bytes × Bytes} (h : Storable e) :
    Segment (CConfigFileReader.szPaire e) := by
  have hpos : 0 < (lineText e).length := by
    rw [lineText, List.length_append, List.length_cons]
    omega
  rcases Nat.lt_or_ge (lineText e).length 127 with hlt | hge
  · rw [h.szPaire_short (by omega)]
    refine ⟨List.append_ne_nil_of_right_ne_nil _ (List.cons_ne_nil _ _), ?_, ?_⟩
    · rw [List.length_append, List.length_singleton]
      omega
    · rw [List.dropLast_concat]
      exact h.no_newline
  · rw [h.szPaire_long hge]
    refine ⟨?_, ?_, fun hin => h.not_mem_take 127 (List.dropLast_subset _ hin)⟩
    · apply List.length_pos_iff.mp
      rw [List.length_take]
      omega
    · rw [List.length_take]
      omega

/-- What `writeFile` writes for the pairs of a map. -/
def savedText (entries : List (Bytes × Bytes)) : Bytes :=
  (entries.map CConfigFileReader.szPaire).flatten

private theorem writePairs_text {calls : WriteCalls} {entries : List (Bytes × Bytes)} {i : Nat}
    (h : (CConfigFileReader.writePairs calls i entries).1 = 0) :
    (CConfigFileReader.writePairs calls i entries).2 = savedText entries := by
  induction entries generalizing i with
  | nil => rfl
  | cons e entries ih =>
    rw [CConfigFileReader.writePairs] at h ⊢
    split at h
    · next hok =>
      rw [if_pos hok, savedText, List.map_cons, List.flatten_cons, ih h, savedText]
    · exact absurd h (show (-1 : Int) ≠ 0 by decide)

/-- Pairs that fit are read back line by line, in front of whatever follows. -/
theorem lines_savedText {entries : List (Bytes × Bytes)} (tail : Bytes)
    (h : ∀ e ∈ entries, Storable e ∧ (lineText e).length ≤ 126) :
    lines (savedText entries ++ tail) = entries.map lineText ++ lines tail := by
  induction entries with
  | nil => rfl
  | cons e entries ih =>
    obtain ⟨hstore, hlen⟩ := h e List.mem_cons_self
    rw [savedText, List.map_cons, List.flatten_cons, hstore.szPaire_short hlen, List.append_assoc,
      List.append_assoc, List.singleton_append, lines_append_newline _ hstore.no_newline,
      List.map_cons, List.cons_append]
    exact congrArg _ (ih fun e' he' => h e' (List.mem_cons_of_mem _ he'))

private theorem filterMap_lineText {entries : List (Bytes × Bytes)}
    (h : ∀ e ∈ entries, Storable e) :
    (entries.map lineText).filterMap lineEntry = entries := by
  induction entries with
  | nil => rfl
  | cons e entries ih =>
    rw [List.map_cons, List.filterMap_cons, (h e List.mem_cons_self).lineEntry_eq,
      ih fun e' he' => h e' (List.mem_cons_of_mem _ he')]

private theorem not_mem_savedText {entries : List (Bytes × Bytes)} (h : ∀ e ∈ entries, Storable e) :
    0 ∉ savedText entries := by
  intro hin
  obtain ⟨l, hl, hmem⟩ := List.mem_flatten.mp hin
  obtain ⟨e, he, rfl⟩ := List.mem_map.mp hl
  rw [(h e he).szPaire_eq] at hmem
  rcases List.mem_append.mp (List.mem_of_mem_take hmem) with hmem | hmem
  · exact (h e he).no_nul hmem
  · cases List.mem_singleton.mp hmem

/-- Every pair but the last takes up to 126 bytes, the last up to 127. -/
def PairsFit (entries : List (Bytes × Bytes)) : Prop :=
  (∀ e ∈ entries.dropLast, (lineText e).length ≤ 126) ∧
    ∀ e ∈ entries.getLast?, (lineText e).length ≤ 127

/-- Behind pairs that fit, a line of its own is loaded with or without its newline. -/
theorem loadFile_saved_line {init : List (Bytes × Bytes)} {line part : Bytes}
    (hinit : ∀ e ∈ init, Storable e ∧ (lineText e).length ≤ 126) (hne : line ≠ [])
    (hnl : 10 ∉ line) (hnul : 0 ∉ line) (hlen : line.length ≤ 255)
    (hpart : part = line ∨ part = line ++ [10]) :
    (loadFile (savedText init ++ part)).value =
      SortedMap.empty.insertAll (init ++ (lineEntry line).toList) := by
  have hlines : lines (savedText init ++ part) = init.map lineText ++ [line] := by
    rw [lines_savedText part hinit]
    rcases hpart with rfl | rfl
    · rw [lines_of_not_mem hne hnl]
    · rw [lines_append_newline [] hnl]
      rfl
  have hnul' : 0 ∉ savedText init ++ part := by
    rw [List.mem_append, not_or]
    refine ⟨not_mem_savedText fun e he => (hinit e he).1, ?_⟩
    rcases hpart with rfl | rfl
    · exact hnul
    · rw [List.mem_append, List.mem_singleton, not_or]
      exact ⟨hnul, by decide⟩
  rw [loadFile_eq_reference hnul', referenceParse, parseLines, hlines, List.filterMap_append,
    filterMap_lineText fun e he => (hinit e he).1, List.filterMap_cons]
  · cases lineEntry line <;> rfl
  · intro l hl
    rw [hlines] at hl
    rcases List.mem_append.mp hl with hl | hl
    · obtain ⟨e, he, rfl⟩ := List.mem_map.mp hl
      have := (hinit e he).2
      omega
    · rw [List.mem_singleton.mp hl]
      exact hlen

private theorem length_loadFile_le (content : Bytes) :
    (loadFile content).value.entries.length ≤ (pieces content).length := by
  have hcount := (SortedMap.empty : ConfigMap).length_insertAll_le
    ((pieces content).filterMap fun p => (loadPiece p).value)
  have hfilter := List.length_filterMap_le (fun p => (loadPiece p).value) (pieces content)
  rw [loadFile, loadPieces_value]
  refine Nat.le_trans hcount ?_
  rw [show (SortedMap.empty : ConfigMap).entries.length = 0 from rfl]
  omega

/-- What has reached the file of a segment is a segment, unless it is nothing. -/
theorem Segment.front {s part : Bytes} (h : Segment s) (hpart : part <+: s) (hne : part ≠ []) :
    Segment part where
  ne_nil := hne
  length_le := Nat.le_trans hpart.length_le h.length_le
  newline := by
    intro hin
    obtain ⟨rest, rfl⟩ := hpart
    have hnewline := h.newline
    by_cases hrest : rest = []
    · rw [hrest, List.append_nil] at hnewline
      exact hnewline hin
    · rw [List.dropLast_append_of_ne_nil hrest] at hnewline
      exact hnewline (List.mem_append_left _ (List.dropLast_subset _ hin))

/-- When as many pairs are loaded as were saved, something of the last one is in the file. -/
theorem exists_part_of_length {init : List (Bytes × Bytes)} {e : Bytes × Bytes} {kept : Bytes}
    (h : ∀ e' ∈ init ++ [e], Storable e') (hkept : kept <+: savedText (init ++ [e]))
    (hcount : init.length < (loadFile kept).value.entries.length) :
    ∃ part, part ≠ [] ∧ part <+: CConfigFileReader.szPaire e ∧ kept = savedText init ++ part := by
  have hsegs : ∀ s ∈ (init ++ [e]).map CConfigFileReader.szPaire, Segment s := by
    intro s hs
    obtain ⟨e', he', rfl⟩ := List.mem_map.mp hs
    exact (h e' he').segment
  have hloaded := length_loadFile_le kept
  obtain ⟨first, rest, part, hrows, rfl, hend⟩ := exists_split_of_prefix_flatten hkept
  rw [hrows] at hsegs
  have hfirst : ∀ s ∈ first, Segment s := fun s hs => hsegs s (List.mem_append_left _ hs)
  have hlen := congrArg List.length hrows
  rw [List.length_map, List.length_append, List.length_append, List.length_singleton] at hlen
  rw [List.map_append, List.map_singleton] at hrows
  by_cases hpart : part = []
  · -- Only whole segments: they are all there, or the file has too few pieces.
    rw [hpart, List.append_nil] at hcount hloaded ⊢
    have hpieces := length_pieces_le hfirst
    have hrest : rest = [] := List.eq_nil_of_length_eq_zero (by omega)
    rw [hrest, List.append_nil] at hrows
    refine ⟨_, (h e (List.mem_append_right _ (List.mem_singleton.mpr rfl))).segment.ne_nil,
      List.prefix_refl _, ?_⟩
    rw [← hrows, List.flatten_append, List.flatten_singleton, savedText]
  · obtain ⟨row, later, rfl, hrow, -⟩ := hend.resolve_left fun hnone => hpart hnone.2
    have hlast : Segment part :=
      (hsegs row (List.mem_append_right _ List.mem_cons_self)).front hrow hpart
    have hall : ∀ s ∈ first ++ [part], Segment s := by
      intro s hs
      rcases List.mem_append.mp hs with hs | hs
      · exact hfirst s hs
      · rw [List.mem_singleton.mp hs]
        exact hlast
    have hpieces := length_pieces_le hall
    rw [List.flatten_append, List.flatten_singleton, List.length_append,
      List.length_singleton] at hpieces
    rw [List.length_cons] at hlen
    obtain rfl : later = [] := List.eq_nil_of_length_eq_zero (by omega)
    obtain ⟨hinit, hszPaire⟩ := List.append_inj' hrows rfl
    rw [List.singleton_inj] at hszPaire
    exact ⟨part, hpart, hszPaire ▸ hrow, by rw [savedText, hinit]⟩

/-- When as many pairs are loaded as were saved, all in front of the last fit: a pair that does
not has no newline in its segment, so there are fewer pieces than pairs. -/
theorem init_fits_of_length {init : List (Bytes × Bytes)} {part : Bytes}
    (h : ∀ e ∈ init, Storable e) (hpart : Segment part)
    (hcount : init.length < (loadFile (savedText init ++ part)).value.entries.length) :
    ∀ e ∈ init, (lineText e).length ≤ 126 := by
  intro e he
  by_contra hlong
  have hsegs : ∀ s ∈ init.map CConfigFileReader.szPaire ++ [part], Segment s := by
    intro s hs
    rcases List.mem_append.mp hs with hs | hs
    · obtain ⟨e', he', rfl⟩ := List.mem_map.mp hs
      exact (h e' he').segment
    · rw [List.mem_singleton.mp hs]
      exact hpart
  have hopen : ∃ s ∈ (init.map CConfigFileReader.szPaire ++ [part]).dropLast, 10 ∉ s := by
    refine ⟨CConfigFileReader.szPaire e, ?_, ?_⟩
    · rw [List.dropLast_concat]
      exact List.mem_map_of_mem he
    · rw [(h e he).szPaire_long (by omega)]
      exact (h e he).not_mem_take 127
  have hpieces := length_pieces_lt hsegs hopen
  have hloaded := length_loadFile_le (savedText init ++ part)
  rw [List.flatten_append, List.flatten_singleton, List.length_append, List.length_map,
    List.length_singleton] at hpieces
  rw [savedText] at hcount hloaded
  omega

/-- A line that is made of the front of a pair's text and read back as the pair is all of it. -/
theorem eq_lineText_of_lineEntry {e : Bytes × Bytes} {line : Bytes} (hline : line <+: lineText e)
    (h : lineEntry line = some e) : line = lineText e :=
  hline.eq_of_length_le (foundIn_of_lineEntry h).length_le

/-- All of the text is in the file, its last newline aside. -/
def Complete (text kept : Bytes) : Prop := kept = text ∨ kept ++ [10] = text

/-- When the last pair is loaded again, it fits, and all of it is in the file. -/
theorem last_fits_of_mem {init : List (Bytes × Bytes)} {e : Bytes × Bytes} {part : Bytes}
    (hinit : ∀ e' ∈ init, Storable e' ∧ (lineText e').length ≤ 126) (he : Storable e)
    (hnew : e ∉ init) (hne : part ≠ []) (hpart : part <+: CConfigFileReader.szPaire e)
    (hmem : e ∈ (loadFile (savedText init ++ part)).value.entries) :
    (lineText e).length ≤ 127 ∧ Complete (CConfigFileReader.szPaire e) part := by
  have hfound : ∀ {line}, line ≠ [] → line <+: lineText e → line.length ≤ 127 →
      part = line ∨ part = line ++ [10] → line = lineText e := by
    intro line hne' hline hlen heq
    have hnl : 10 ∉ line := fun hin => he.no_newline (hline.subset hin)
    have hnul : 0 ∉ line := fun hin => he.no_nul (hline.subset hin)
    rw [loadFile_saved_line hinit hne' hnl hnul (by omega) heq] at hmem
    rcases SortedMap.mem_insertAll hmem with hmem | hmem
    · cases hmem
    · have hentry := (List.mem_append.mp hmem).resolve_left hnew
      exact eq_lineText_of_lineEntry hline (Option.mem_toList.mp hentry)
  have hshort := he.segment.length_le
  have hpartlen := hpart.length_le
  have htext : lineText e ≠ [] := List.append_ne_nil_of_right_ne_nil _ (List.cons_ne_nil _ _)
  have hwhole := hpart.trans (he.szPaire_eq ▸ List.take_prefix 127 (lineText e ++ [10]))
  rcases List.prefix_concat_iff.mp hwhole with rfl | hline
  · rw [List.length_append, List.length_singleton] at hpartlen
    refine ⟨by omega, Or.inl ?_⟩
    rw [he.szPaire_short (by omega)]
  · have hsame := hfound hne hline (by omega) (Or.inl rfl)
    rw [hsame] at hpartlen ⊢
    refine ⟨by omega, ?_⟩
    rcases Nat.lt_or_ge (lineText e).length 127 with hlt | hge
    · exact Or.inr (he.szPaire_short (by omega)).symm
    · exact Or.inl (by rw [he.szPaire_long hge, List.take_of_length_le (by omega)])

/-- With at most the newline at the end missing, the line of a last pair that fits is all there. -/
theorem exists_line_of_complete {init : List (Bytes × Bytes)} {e : Bytes × Bytes} {kept : Bytes}
    (he : Storable e) (hlen : (lineText e).length ≤ 127)
    (h : Complete (savedText init ++ CConfigFileReader.szPaire e) kept) :
    ∃ part, kept = savedText init ++ part ∧ (part = lineText e ∨ part = lineText e ++ [10]) := by
  rcases Nat.lt_or_ge (lineText e).length 127 with hlt | hge
  · rw [he.szPaire_short (by omega)] at h
    rcases h with rfl | h
    · exact ⟨_, rfl, Or.inr rfl⟩
    · rw [← List.append_assoc, List.append_cancel_right_eq] at h
      exact ⟨_, h, Or.inl rfl⟩
  · rw [he.szPaire_long hge, List.take_of_length_le hlen] at h
    rcases h with rfl | h
    · exact ⟨_, rfl, Or.inl rfl⟩
    · -- No newline was written, so none is missing.
      have hlast := congrArg List.getLast? h
      have hne : lineText e ≠ [] := List.append_ne_nil_of_right_ne_nil _ (List.cons_ne_nil _ _)
      rw [List.getLast?_concat, List.getLast?_append_of_ne_nil _ hne] at hlast
      exact absurd (List.mem_of_getLast? hlast.symm) he.no_newline

/-- A map is loaded from what has reached its file exactly when its pairs fit and all of them
are there. -/
theorem loadFile_kept_iff {m : ConfigMap} (h : ∀ e ∈ m.entries, Storable e) {kept : Bytes}
    (hkept : kept <+: savedText m.entries) :
    (loadFile kept).value = m ↔ PairsFit m.entries ∧ Complete (savedText m.entries) kept := by
  have hsorted := m.sorted
  generalize hentries : m.entries = entries at h hsorted hkept
  rcases List.eq_nil_or_concat entries with rfl | ⟨init, e, hconcat⟩
  · obtain rfl := List.prefix_nil.mp hkept
    constructor
    · intro _
      exact ⟨⟨fun e he => absurd he List.not_mem_nil, fun e he => by cases he⟩, Or.inl rfl⟩
    · intro _
      apply SortedMap.ext
      rw [hentries]
      rfl
  · rw [List.concat_eq_append] at hconcat
    subst hconcat
    have he : Storable e := h e (List.mem_append_right _ (List.mem_singleton.mpr rfl))
    have hstore : ∀ e' ∈ init, Storable e' := fun e' he' => h e' (List.mem_append_left _ he')
    have htext : savedText (init ++ [e]) = savedText init ++ CConfigFileReader.szPaire e := by
      rw [savedText, List.map_append, List.flatten_append, List.map_singleton,
        List.flatten_singleton, savedText]
    rw [PairsFit, List.dropLast_concat, List.getLast?_concat]
    constructor
    · intro hload
      have hcount : init.length < (loadFile kept).value.entries.length := by
        rw [hload, hentries, List.length_append, List.length_singleton]
        exact Nat.lt_succ_self _
      obtain ⟨part, hne, hpart, rfl⟩ := exists_part_of_length h hkept hcount
      have hinit := init_fits_of_length hstore (he.segment.front hpart hne) hcount
      have hnew : e ∉ init := by
        intro hin
        have hlt := (List.pairwise_append.mp hsorted).2.2 e hin e (List.mem_singleton.mpr rfl)
        exact irrefl_of (· < ·) e.1 hlt
      have hmem : e ∈ (loadFile (savedText init ++ part)).value.entries := by
        rw [hload, hentries]
        exact List.mem_append_right _ (List.mem_singleton.mpr rfl)
      obtain ⟨hlast, hcomplete⟩ :=
        last_fits_of_mem (fun e' he' => ⟨hstore e' he', hinit e' he'⟩) he hnew hne hpart hmem
      refine ⟨⟨hinit, fun e' he' => ?_⟩, ?_⟩
      · cases he'
        exact hlast
      · rw [htext]
        rcases hcomplete with hall | hall
        · exact Or.inl (by rw [hall])
        · exact Or.inr (by rw [List.append_assoc, hall])
    · rintro ⟨⟨hinit, hlast⟩, hcomplete⟩
      have hlen := hlast e rfl
      obtain ⟨part, rfl, hpart⟩ := exists_line_of_complete he hlen (htext ▸ hcomplete)
      have hne : lineText e ≠ [] := List.append_ne_nil_of_right_ne_nil _ (List.cons_ne_nil _ _)
      rw [loadFile_saved_line (fun e' he' => ⟨hstore e' he', hinit e' he'⟩) hne he.no_newline
        he.no_nul (by omega) hpart, he.lineEntry_eq]
      apply SortedMap.ext
      rw [hentries]
      exact SortedMap.entries_insertAll hsorted

/-! ## Setting a value -/

/-- The map with one value set. -/
def updated (m : ConfigMap) (name value : Bytes) : ConfigMap :=
  if (m.get? name).isSome then m.assign name value else m.insert name value

private theorem get?_updated (m : ConfigMap) (name value k : Bytes) :
    (updated m name value).get? k = if k = name then some value else m.get? k := by
  rw [updated]
  cases hget : m.get? name with
  | none => rw [Option.isSome_none, if_neg Bool.false_ne_true, SortedMap.get?_insert, hget,
      Option.getD_none]
  | some old => rw [Option.isSome_some, if_pos rfl, SortedMap.get?_assign, hget, Option.map_some]

/-- A pair of the new map is the new pair or one of the old map. -/
theorem mem_updated {m : ConfigMap} {name value : Bytes} {e : Bytes × Bytes}
    (h : e ∈ (updated m name value).entries) : e = (name, value) ∨ e ∈ m.entries := by
  rw [updated] at h
  split at h
  · obtain ⟨e', he', rfl⟩ := List.mem_map.mp h
    rw [SortedMap.assignEntry]
    split
    · exact Or.inl rfl
    · exact Or.inr he'
  · exact SortedMap.mem_insertEntry h

private theorem setConfigValue_saved {r : CConfigFileReader} {calls : WriteCalls}
    {content name value : Bytes} (h : (r.setConfigValue calls content name value).1 = 0) :
    (r.setConfigValue calls content name value).2.2 =
      calls.flushed (savedText (updated r.configMap name value).entries) := by
  rw [CConfigFileReader.setConfigValue] at h ⊢
  split at h
  · next hload =>
    rw [if_pos hload]
    change (CConfigFileReader.writeFile _ calls content).1 = 0 at h
    change (CConfigFileReader.writeFile _ calls content).2 = _
    rw [CConfigFileReader.writeFile] at h ⊢
    split at h
    · next hopen =>
      rw [if_pos hopen]
      exact congrArg calls.flushed (writePairs_text h)
    · exact absurd h (show (-1 : Int) ≠ 0 by decide)
  · exact absurd h (show (-1 : Int) ≠ 0 by decide)

private theorem WriteCalls.flushed_prefix (calls : WriteCalls) (written : Bytes) :
    calls.flushed written <+: written := by
  rw [flushed]
  split
  · exact List.prefix_refl _
  · exact List.take_prefix _ _

/-- After a value was set and saved, a new reader finds this value and all the old ones exactly
when the pairs of the new map fit and the flush in `fclose` has lost no more than the newline at
the end. -/
theorem reload_iff {content name value : Bytes} {calls : WriteCalls} (hnul : 0 ∉ content)
    (hpair : Storable (name, value))
    (hok : ((CConfigFileReader.new content).setConfigValue calls content name value).1 = 0) :
    (∀ k, (CConfigFileReader.new ((CConfigFileReader.new content).setConfigValue calls content
        name value).2.2).configMap.get? k =
          if k = name then some value else (CConfigFileReader.new content).configMap.get? k) ↔
      let entries := (updated (CConfigFileReader.new content).configMap name value).entries
      PairsFit entries ∧ Complete (savedText entries) (calls.flushed (savedText entries)) := by
  have hstore : ∀ e ∈ (updated (CConfigFileReader.new content).configMap name value).entries,
      Storable e := by
    intro e he
    rcases mem_updated he with rfl | he
    · exact hpair
    · exact storable_of_mem_loadFile hnul he
  dsimp only
  rw [setConfigValue_saved hok, ← loadFile_kept_iff hstore (calls.flushed_prefix _)]
  constructor
  · intro hsame
    apply SortedMap.ext_get?
    intro k
    rw [get?_updated]
    exact hsame k
  · intro hload k
    rw [CConfigFileReader.new, hload, get?_updated]

/-- `c=d` set in a file with `a=b`. -/
theorem reload_small :
    (CConfigFileReader.new ((CConfigFileReader.new [97, 61, 98, 10]).setConfigValue
      ⟨true, fun _ => true, none⟩ [97, 61, 98, 10] [99] [100]).2.2).configMap.get? [97] = some [98] := by
  have hstore : Storable ([99], [100]) :=
    ⟨trimmed_replicate 0 (by decide), trimmed_replicate 0 (by decide), by decide, by decide,
      by decide, by decide⟩
  have hfit : PairsFit
      (updated (CConfigFileReader.new [97, 61, 98, 10]).configMap [99] [100]).entries := by
    rw [PairsFit]
    decide
  have hok : ((CConfigFileReader.new [97, 61, 98, 10]).setConfigValue
      ⟨true, fun _ => true, none⟩ [97, 61, 98, 10] [99] [100]).1 = 0 := rfl
  have hreload := (reload_iff (by decide) hstore hok).mpr ⟨hfit, Or.inl rfl⟩
  rw [hreload [97]]
  decide

/-- A pair of 127 bytes set in a file with `z=1`: its line has no newline, and `z` is gone. -/
theorem reload_loses_entry :
    let r := CConfigFileReader.new [122, 61, 49, 10]
    let after := r.setConfigValue ⟨true, fun _ => true, none⟩ [122, 61, 49, 10] (longPair 124).1
      (longPair 124).2
    Storable (longPair 124) ∧ after.1 = 0 ∧ r.configMap.get? [122] = some [49] ∧
      (CConfigFileReader.new after.2.2).configMap.get? [122] = none := by
  refine ⟨⟨trimmed_replicate 0 (by decide), trimmed_replicate 124 (by decide), by decide, ?_, ?_,
    ?_⟩, by decide +kernel, by decide, by decide +kernel⟩
  · exact not_mem_longPair 124 (by decide) (by decide) (by decide)
  · exact not_mem_longPair 124 (by decide) (by decide) (by decide)
  · exact not_mem_longPair 124 (by decide) (by decide) (by decide)

end ChatRoom.Base
