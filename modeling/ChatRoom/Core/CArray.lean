import ChatRoom.Core.Lines
import ChatRoom.Core.Slice

/-!
# Character arrays

The string functions of C on an array, which is a byte string of a fixed length; `none` is a
write outside of it. `resize t n 0` is the array of `n` bytes that holds the text `t` in
front of zeros. Storing a byte behind the text and `strcat` agree on where that is, as long
as the text has no NUL, so each of them makes the text longer and leaves zeros behind it.
-/

namespace ChatRoom.Core

/-- `a[i] = c`. -/
def store (a : Bytes) (i : Nat) (c : UInt8) : Option Bytes :=
  if i < a.length then some (a.set i c) else none

/-- The number of bytes before the first NUL. -/
def strlen (a : Bytes) : Nat := (cstr a).length

/-- `strncpy`, which fills up with zeros. -/
def strncpy (dst src : Bytes) (n : Nat) : Option Bytes :=
  if n ≤ dst.length then some (overwrite dst 0 (resize (cstr src) n 0)) else none

/-- `strcat`: from the first NUL of `dst` on, the string in `src` and its NUL. -/
def strcat (dst src : Bytes) : Option Bytes :=
  if strlen dst + strlen src < dst.length then some (overwrite dst (strlen dst) (cstr src ++ [0]))
  else none

/-! ## A text in front of zeros -/

variable {t s : Bytes} {n : Nat}

/-- A text without NULs stays one when another character is appended. -/
theorem zero_not_mem_concat {c : UInt8} (h : 0 ∉ t) (hc : c ≠ 0) : 0 ∉ t ++ [c] := by
  rw [List.mem_append, List.mem_singleton]
  rintro (hin | hin)
  · exact h hin
  · exact hc hin.symm

private theorem resize_of_le (h : t.length ≤ n) :
    resize t n 0 = t ++ List.replicate (n - t.length) 0 := by
  rw [resize, List.take_of_length_le h]

/-- `memset` makes the array of the empty text. -/
theorem resize_nil (n : Nat) : resize ([] : Bytes) n 0 = List.replicate n 0 := by
  rw [resize, List.take_nil, List.nil_append, List.length_nil, Nat.sub_zero]

/-- A text in an array of zeros is found again. -/
theorem cstr_resize (h : 0 ∉ t) (hn : t.length ≤ n) : cstr (resize t n 0) = t := by
  have htext : ∀ c ∈ t, decide (c ≠ 0) = true := by
    intro c hc
    rw [decide_eq_true_eq]
    rintro rfl
    exact h hc
  rw [resize_of_le hn, cstr, List.takeWhile_append_of_pos htext]
  cases n - t.length with
  | zero => exact List.append_nil t
  | succ k => exact List.append_nil t

/-- The length of a text in an array of zeros is found again. -/
theorem strlen_resize (h : 0 ∉ t) (hn : t.length ≤ n) : strlen (resize t n 0) = t.length := by
  rw [strlen, cstr_resize h hn]

/-- A byte behind the text is added to it. -/
theorem store_resize (hn : t.length < n) (c : UInt8) :
    store (resize t n 0) t.length c = some (resize (t ++ [c]) n 0) := by
  have hlonger : (t ++ [c]).length ≤ n := by
    rw [List.length_append, List.length_singleton]
    exact hn
  rw [store, length_resize, if_pos hn, resize_of_le (Nat.le_of_lt hn), resize_of_le hlonger,
    List.set_append_right _ _ (Nat.le_refl _), Nat.sub_self, List.length_append,
    List.length_singleton, List.append_assoc]
  obtain ⟨k, hk⟩ := Nat.exists_eq_succ_of_ne_zero (Nat.sub_ne_zero_of_lt hn)
  rw [hk, List.replicate_succ, List.set_cons_zero, show n - (t.length + 1) = k by omega,
    List.singleton_append]

/-- A NUL behind the text was there before. -/
theorem resize_concat_zero (hn : t.length < n) : resize (t ++ [0]) n 0 = resize t n 0 := by
  have hlonger : (t ++ [0]).length ≤ n := by
    rw [List.length_append, List.length_singleton]
    exact hn
  obtain ⟨k, hk⟩ := Nat.exists_eq_succ_of_ne_zero (Nat.sub_ne_zero_of_lt hn)
  rw [resize_of_le hlonger, resize_of_le (Nat.le_of_lt hn), List.length_append,
    List.length_singleton, hk, List.replicate_succ, List.append_assoc, List.singleton_append,
    show n - (t.length + 1) = k by omega]

/-- Text over the zeros of the array, and some zeros more. -/
theorem overwrite_resize {m : Nat} (hn : t.length + s.length + m ≤ n) :
    overwrite (resize t n 0) t.length (s ++ List.replicate m 0) = resize (t ++ s) n 0 := by
  have hfits : (t ++ s).length ≤ n := by
    rw [List.length_append]
    omega
  have hzeros : m + (n - t.length - (s.length + m)) = n - (t.length + s.length) := by omega
  rw [overwrite, length_resize, resize_of_le (by omega), resize_of_le hfits, List.take_left,
    List.drop_append, List.drop_eq_nil_of_le (Nat.le_add_right _ _), List.nil_append,
    Nat.add_sub_cancel_left, List.drop_replicate, List.length_append, List.length_replicate,
    List.append_assoc, List.append_assoc, List.replicate_append_replicate, hzeros,
    List.length_append, List.append_assoc]
  apply List.take_of_length_le
  simp only [List.length_append, List.length_replicate]
  omega

/-- A string appended to the text. -/
theorem strcat_resize {src : Bytes} (ht : 0 ∉ t) (hsrc : cstr src = s)
    (hn : t.length + s.length < n) : strcat (resize t n 0) src = some (resize (t ++ s) n 0) := by
  have hlen := strlen_resize ht (show t.length ≤ n by omega)
  have hwrite := @overwrite_resize t s n 1 (by omega)
  rw [strcat, hlen, strlen, hsrc, length_resize, if_pos hn]
  exact congrArg some hwrite

/-- A string copied into an array of zeros. -/
theorem strncpy_replicate {m : Nat} (h : 0 ∉ s) (hs : s.length ≤ n) (hn : n ≤ m) :
    strncpy (List.replicate m 0) s n = some (resize s m 0) := by
  have hwrite := @overwrite_resize [] s m (n - s.length) (by rw [List.length_nil]; omega)
  rw [strncpy, List.length_replicate, if_pos hn, cstr_of_not_mem h, resize_of_le hs, ← resize_nil]
  exact congrArg some hwrite

end ChatRoom.Core
