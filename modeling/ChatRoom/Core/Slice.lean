import Mathlib.Data.List.Basic

/-!
# Windows of a list and writes into it

`slice l i j` is the half-open window of `l` between two indices, and
`overwrite l pos data` the list after an in-place copy that never changes the
length. The lemmas say how windows split, shrink and survive a write beside
them; each is proved by reading one position.
-/

namespace ChatRoom.Core

variable {α : Type*}

/-- The elements at positions `i, …, j - 1`. -/
def slice (l : List α) (i j : Nat) : List α := (l.take j).drop i

/-- Copy `data` over the positions from `pos` on; what would fall outside is cut off. -/
def overwrite (l : List α) (pos : Nat) (data : List α) : List α :=
  (l.take pos ++ data ++ l.drop (pos + data.length)).take l.length

/-- Cut a list to `n` elements, or pad it with `fill` up to `n`. -/
def resize (l : List α) (n : Nat) (fill : α) : List α :=
  l.take n ++ List.replicate (n - l.length) fill

private theorem getElem?_slice (l : List α) (i j k : Nat) :
    (slice l i j)[k]? = if i + k < j then l[i + k]? else none := by
  simp only [slice, List.getElem?_drop, List.getElem?_take]

/-- A slice inside the list has the length of its interval. -/
theorem length_slice {l : List α} {i j : Nat} (h : j ≤ l.length) :
    (slice l i j).length = j - i := by
  simp only [slice, List.length_drop, List.length_take]
  omega

/-- An empty interval has an empty slice. -/
@[simp] theorem slice_self (l : List α) (i : Nat) : slice l i i = [] := by
  simp only [slice, List.drop_eq_nil_iff, List.length_take]
  omega

/-- Adjacent windows join. -/
theorem slice_append {l : List α} {i j k : Nat} (hij : i ≤ j) (hjk : j ≤ k) (hk : k ≤ l.length) :
    slice l i j ++ slice l j k = slice l i k := by
  apply List.ext_getElem?
  intro n
  rw [List.getElem?_append, length_slice (Nat.le_trans hjk hk)]
  simp only [getElem?_slice]
  by_cases hn : n < j - i
  · rw [if_pos hn, if_pos (by omega), if_pos (by omega)]
  · rw [if_neg hn, show j + (n - (j - i)) = i + n by omega]

/-- The front of a slice is dropped by moving its lower end. -/
theorem drop_slice (l : List α) (i j n : Nat) : (slice l i j).drop n = slice l (i + n) j := by
  simp only [slice, List.drop_drop]

/-- The front of a slice is taken by moving its upper end. -/
theorem take_slice {l : List α} {i j n : Nat} (h : i + n ≤ j) :
    (slice l i j).take n = slice l i (i + n) := by
  apply List.ext_getElem?
  intro k
  simp only [List.getElem?_take, getElem?_slice]
  by_cases hk : k < n
  · rw [if_pos hk, if_pos (by omega), if_pos (by omega)]
  · rw [if_neg hk, if_neg (by omega)]

/-- Overwriting inside a list keeps its length. -/
@[simp] theorem length_overwrite {l : List α} {pos : Nat} (data : List α) (h : pos ≤ l.length) :
    (overwrite l pos data).length = l.length := by
  simp only [overwrite, List.length_take, List.length_append, List.length_drop]
  omega

private theorem getElem?_overwrite {l : List α} {pos k : Nat} (data : List α) (h : pos ≤ l.length)
    (hk : k < l.length) :
    (overwrite l pos data)[k]? =
      if pos ≤ k ∧ k < pos + data.length then data[k - pos]? else l[k]? := by
  have hpos : (l.take pos).length = pos := by rw [List.length_take]; omega
  rw [overwrite, List.getElem?_take, if_pos hk]
  by_cases hlow : k < pos
  · rw [if_neg (by omega), List.append_assoc, List.getElem?_append_left (by omega),
      List.getElem?_take, if_pos hlow]
  · by_cases hhigh : k < pos + data.length
    · rw [if_pos ⟨by omega, hhigh⟩,
        List.getElem?_append_left (by rw [List.length_append, hpos]; exact hhigh),
        List.getElem?_append_right (by omega), hpos]
    · rw [if_neg (by omega),
        List.getElem?_append_right (by rw [List.length_append, hpos]; omega), List.length_append,
        hpos, List.getElem?_drop, show pos + data.length + (k - (pos + data.length)) = k by omega]

/-- The written window reads back the data. -/
theorem slice_overwrite_self {l : List α} {pos : Nat} {data : List α}
    (h : pos + data.length ≤ l.length) :
    slice (overwrite l pos data) pos (pos + data.length) = data := by
  apply List.ext_getElem?
  intro k
  rw [getElem?_slice]
  by_cases hk : k < data.length
  · rw [if_pos (by omega), getElem?_overwrite data (by omega) (by omega), if_pos (by omega),
      Nat.add_sub_cancel_left]
  · rw [if_neg (by omega), List.getElem?_eq_none (by omega)]

/-- A window that the write does not touch is unchanged. -/
theorem slice_overwrite_of_disjoint {l : List α} {pos i j : Nat} {data : List α}
    (hpos : pos ≤ l.length) (hj : j ≤ l.length) (h : j ≤ pos ∨ pos + data.length ≤ i) :
    slice (overwrite l pos data) i j = slice l i j := by
  apply List.ext_getElem?
  intro k
  simp only [getElem?_slice]
  by_cases hk : i + k < j
  · rw [if_pos hk, if_pos hk, getElem?_overwrite data hpos (by omega), if_neg (by omega)]
  · rw [if_neg hk, if_neg hk]

/-- Writing over the whole of a front part replaces it. -/
theorem overwrite_front {a b data : List α} (h : data.length = a.length) :
    overwrite (a ++ b) 0 data = data ++ b := by
  rw [overwrite, List.take_zero, List.nil_append, Nat.zero_add, h, List.drop_left]
  exact List.take_of_length_le (by simp only [List.length_append, h, Nat.le_refl])

/-- A resized list has the new length. -/
@[simp] theorem length_resize (l : List α) (n : Nat) (fill : α) : (resize l n fill).length = n := by
  simp only [resize, List.length_append, List.length_take, List.length_replicate]
  omega

/-- Growing a list keeps every window of the old one. -/
theorem slice_resize {l : List α} {n i j : Nat} (fill : α) (hn : l.length ≤ n)
    (hj : j ≤ l.length) : slice (resize l n fill) i j = slice l i j := by
  apply List.ext_getElem?
  intro k
  simp only [getElem?_slice, resize]
  by_cases hk : i + k < j
  · rw [if_pos hk, if_pos hk, List.take_of_length_le hn, List.getElem?_append_left (by omega)]
  · rw [if_neg hk, if_neg hk]

end ChatRoom.Core
