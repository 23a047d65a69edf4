import Mathlib.Data.List.Basic

/-!
# Rows of a list

A list cut into rows of `n` elements, the last of which may be shorter. Every list is
empty, or one row, or a full row in front of another list, which is the case analysis that
proofs about rows use. Cutting after a whole number of rows cuts no row.
-/

namespace ChatRoom.Core

variable {α : Type*} {n : Nat}

/-- The rows of a list; there is none of length zero. -/
def chunks (n : Nat) (l : List α) : List (List α) :=
  if 0 < n ∧ l ≠ [] then l.take n :: chunks n (l.drop n) else []
termination_by l.length
decreasing_by
  have hpos := List.length_pos_iff.mpr (‹0 < n ∧ l ≠ []›).2
  rw [List.length_drop]
  omega

/-- There are no rows of nothing. -/
theorem chunks_nil (n : Nat) : chunks n ([] : List α) = [] := by
  rw [chunks, if_neg (fun h => h.2 rfl)]

/-- What fits a row is one. -/
theorem chunks_row {row : List α} (hn : row.length ≤ n) (hne : row ≠ []) : chunks n row = [row] := by
  have hpos := List.length_pos_iff.mpr hne
  rw [chunks, if_pos ⟨by omega, hne⟩, List.take_of_length_le hn, List.drop_eq_nil_of_le hn,
    chunks_nil]

/-- A full row comes first. -/
theorem chunks_full {row : List α} (hpos : 0 < n) (hn : row.length = n) (rest : List α) :
    chunks n (row ++ rest) = row :: chunks n rest := by
  have hne : row ++ rest ≠ [] := by
    apply List.append_ne_nil_of_left_ne_nil
    apply List.length_pos_iff.mp
    omega
  rw [chunks, if_pos ⟨hpos, hne⟩, List.take_left' hn, List.drop_left' hn]

/-- What holds of the empty list, of a row, and of a full row in front of a list of which it
holds, holds of every list. -/
theorem chunks_induction {P : List α → Prop} (hpos : 0 < n) (nil : P [])
    (row : ∀ l, l ≠ [] → l.length ≤ n → P l)
    (full : ∀ l rest, l.length = n → rest ≠ [] → P rest → P (l ++ rest)) (l : List α) : P l := by
  induction hlen : l.length using Nat.strongRecOn generalizing l with
  | ind k ih =>
    by_cases hnil : l = []
    · exact hnil ▸ nil
    · by_cases hn : l.length ≤ n
      · exact row l hnil hn
      · have hrest : (l.drop n).length = l.length - n := List.length_drop
        have hP := ih (l.drop n).length (by omega) (l.drop n) rfl
        rw [← List.take_append_drop n l]
        refine full (l.take n) (l.drop n) ?_ ?_ hP
        · rw [List.length_take]
          omega
        · apply List.length_pos_iff.mp
          omega

/-- The rows make up the list again. -/
theorem flatten_chunks (hpos : 0 < n) (l : List α) : (chunks n l).flatten = l := by
  induction l using chunks_induction hpos with
  | nil => rw [chunks_nil, List.flatten_nil]
  | row l hne hn => rw [chunks_row hn hne, List.flatten_singleton]
  | full l rest hn _ ih => rw [chunks_full hpos hn, List.flatten_cons, ih]

/-- No row is longer than `n`. -/
theorem length_le_of_mem_chunks (hpos : 0 < n) {l : List α} :
    ∀ row ∈ chunks n l, row.length ≤ n := by
  induction l using chunks_induction hpos with
  | nil =>
    intro row hrow
    rw [chunks_nil] at hrow
    cases hrow
  | row l hne hn =>
    intro row hrow
    rw [chunks_row hn hne, List.mem_singleton] at hrow
    rw [hrow]
    exact hn
  | full l rest hn _ ih =>
    intro row hrow
    rw [chunks_full hpos hn, List.mem_cons] at hrow
    rcases hrow with rfl | hrow
    · exact Nat.le_of_eq hn
    · exact ih row hrow

/-- The number of rows is the length divided by `n`, rounded up. -/
theorem length_chunks (hpos : 0 < n) (l : List α) :
    (chunks n l).length = (l.length + (n - 1)) / n := by
  induction l using chunks_induction hpos with
  | nil =>
    rw [chunks_nil, List.length_nil, List.length_nil, Nat.zero_add, Nat.div_eq_of_lt (by omega)]
  | row l hne hn =>
    have hlen := List.length_pos_iff.mpr hne
    rw [chunks_row hn hne, List.length_singleton]
    exact (Nat.div_eq_of_lt_le (by omega) (by omega)).symm
  | full l rest hn _ ih =>
    rw [chunks_full hpos hn, List.length_cons, ih, List.length_append, hn, Nat.add_assoc,
      Nat.add_div_left _ hpos]

/-- A whole number of rows in front of a list. -/
theorem chunks_append (hpos : 0 < n) {a : List α} (h : n ∣ a.length) (b : List α) :
    chunks n (a ++ b) = chunks n a ++ chunks n b := by
  induction a using chunks_induction hpos with
  | nil => rw [chunks_nil, List.nil_append, List.nil_append]
  | row a hne hn =>
    have hfull := Nat.le_antisymm hn (Nat.le_of_dvd (List.length_pos_iff.mpr hne) h)
    rw [chunks_full hpos hfull, chunks_row hn hne, List.singleton_append]
  | full a rest hn _ ih =>
    rw [List.length_append, hn] at h
    have hrest := (Nat.dvd_add_right (Nat.dvd_refl n)).mp h
    rw [List.append_assoc, chunks_full hpos hn, chunks_full hpos hn, ih hrest, List.cons_append]

/-- A prefix of a joined list ends inside a row, or behind the last one. -/
theorem exists_split_of_prefix_flatten {rows : List (List α)} {l : List α}
    (h : l <+: rows.flatten) :
    ∃ first rest part, rows = first ++ rest ∧ l = first.flatten ++ part ∧
      (rest = [] ∧ part = [] ∨
        ∃ row later, rest = row :: later ∧ part <+: row ∧ part.length < row.length) := by
  induction rows generalizing l with
  | nil => exact ⟨[], [], [], rfl, List.prefix_nil.mp h, Or.inl ⟨rfl, rfl⟩⟩
  | cons row rows ih =>
    rw [List.flatten_cons] at h
    by_cases hlen : l.length < row.length
    · have hpart : l <+: row :=
        List.prefix_of_prefix_length_le h (List.prefix_append _ _) (Nat.le_of_lt hlen)
      exact ⟨[], row :: rows, l, rfl, rfl, Or.inr ⟨row, rows, rfl, hpart, hlen⟩⟩
    · obtain ⟨l', rfl⟩ := List.prefix_of_prefix_length_le (List.prefix_append row rows.flatten) h
        (Nat.le_of_not_lt hlen)
      obtain ⟨first, rest, part, rfl, rfl, hend⟩ := ih ((List.prefix_append_right_inj row).mp h)
      refine ⟨row :: first, rest, part, rfl, ?_, hend⟩
      rw [List.flatten_cons, List.append_assoc]

end ChatRoom.Core
