import Mathlib.Data.List.Nodup

/-!
# Removal by moving the last element

A list element is removed by putting the last one into its place and dropping the end, which
keeps all other places. The elements are those of the list without the removed one, and each
but the last keeps its position.
-/

namespace ChatRoom.Core

variable {α β : Type}

/-- Put the last element into a place, and drop the end. -/
def swapRemove (l : List α) (i : Nat) : List α :=
  match l.getLast? with
  | none => []
  | some a => (l.set i a).dropLast

private theorem swapRemove_concat (l : List α) (a : α) (i : Nat) :
    swapRemove (l ++ [a]) i = if i < l.length then l.set i a else l := by
  rw [swapRemove, List.getLast?_concat]
  dsimp only
  rw [List.set_append]
  split
  · rw [List.dropLast_concat]
  · next h =>
    cases hi : i - l.length with
    | zero => rw [List.set_cons_zero, List.dropLast_concat]
    | succ n => rw [List.set_cons_succ, List.set_nil, List.dropLast_concat]

/-- The last element is removed as it is. -/
theorem swapRemove_last {l : List α} {i : Nat} (h : i + 1 = l.length) :
    swapRemove l i = l.dropLast := by
  rcases List.eq_nil_or_concat l with rfl | ⟨front, a, rfl⟩
  · rfl
  · rw [List.concat_eq_append, List.length_append, List.length_singleton] at h
    rw [List.concat_eq_append, swapRemove_concat, if_neg (by omega), List.dropLast_concat]

/-- A function goes through the removal. -/
theorem map_swapRemove (f : α → β) (l : List α) (i : Nat) :
    (swapRemove l i).map f = swapRemove (l.map f) i := by
  rcases List.eq_nil_or_concat l with rfl | ⟨front, a, rfl⟩
  · rfl
  · rw [List.concat_eq_append, List.map_append, List.map_singleton, swapRemove_concat,
      swapRemove_concat, List.length_map]
    split
    · rw [List.map_set]
    · rfl

/-- One element is gone. -/
theorem length_swapRemove (l : List α) (i : Nat) : (swapRemove l i).length = l.length - 1 := by
  rcases List.eq_nil_or_concat l with rfl | ⟨front, a, rfl⟩
  · rfl
  · rw [List.concat_eq_append, swapRemove_concat, List.length_append, List.length_singleton,
      Nat.add_sub_cancel]
    split
    · rw [List.length_set]
    · rfl

/-- What stands where afterwards. -/
theorem getElem?_swapRemove {l : List α} {i : Nat} (h : i < l.length) (j : Nat) :
    (swapRemove l i)[j]? =
      if j + 1 < l.length then if j = i then l.getLast? else l[j]? else none := by
  rcases List.eq_nil_or_concat l with rfl | ⟨front, a, rfl⟩
  · cases h
  · rw [List.concat_eq_append] at h ⊢
    rw [List.length_append, List.length_singleton] at h ⊢
    rw [swapRemove_concat, List.getLast?_concat]
    simp only [Nat.add_lt_add_iff_right]
    by_cases hj : j < front.length
    · rw [if_pos hj, List.getElem?_append_left hj]
      by_cases hji : j = i
      · subst hji
        rw [if_pos rfl, if_pos hj, List.getElem?_set_self hj]
      · rw [if_neg hji]
        split
        · rw [List.getElem?_set_ne (Ne.symm hji)]
        · rfl
    · rw [if_neg hj]
      split
      · apply List.getElem?_eq_none
        rw [List.length_set]
        exact Nat.le_of_not_lt hj
      · exact List.getElem?_eq_none (Nat.le_of_not_lt hj)

/-- All elements but one are left. -/
theorem mem_swapRemove {l : List α} (hl : l.Nodup) {i : Nat} {a b : α} (h : l[i]? = some a) :
    b ∈ swapRemove l i ↔ b ∈ l ∧ b ≠ a := by
  have hi : i < l.length := (List.getElem?_eq_some_iff.mp h).1
  have hother : ∀ {j}, l[j]? = some b → j ≠ i → b ≠ a := by
    rintro j hj hne rfl
    exact hne ((List.getElem?_inj (List.getElem?_eq_some_iff.mp hj).1 hl).mp (hj.trans h.symm))
  rw [List.mem_iff_getElem?]
  simp only [getElem?_swapRemove hi, List.getLast?_eq_getElem?]
  constructor
  · rintro ⟨j, hj⟩
    split at hj
    · next hlt =>
      split at hj
      · next hji => exact ⟨List.mem_of_getElem? hj, hother hj (by omega)⟩
      · next hji => exact ⟨List.mem_of_getElem? hj, hother hj hji⟩
    · cases hj
  · rintro ⟨hb, hne⟩
    obtain ⟨j, hj⟩ := List.mem_iff_getElem?.mp hb
    have hlt := (List.getElem?_eq_some_iff.mp hj).1
    have hji : j ≠ i := by
      rintro rfl
      exact hne (Option.some.inj (hj.symm.trans h))
    by_cases hlast : j + 1 < l.length
    · exact ⟨j, by rw [if_pos hlast, if_neg hji, hj]⟩
    · refine ⟨i, ?_⟩
      rw [if_pos (by omega), if_pos rfl, ← hj]
      congr 1
      omega

end ChatRoom.Core
