import Mathlib.Data.Nat.ModEq
import Mathlib.Data.List.Basic

/-!
# End-around-carry sums

In base `b` a carry out of the top is brought round to the low end, so a sum keeps its
residue modulo `b - 1`, and only zeros add up to zero. These two facts determine it:
`residue b n` is the one digit that agrees with `n` in both, and folding the high part
of a number onto its low part does not change it. What is lost by cutting a number off
above a power of the base does change it, unless that is a multiple of `b - 1`.
-/

namespace ChatRoom.Core.OnesComplement

variable {b : Nat}

/-- Two digits, and the carry on top of their sum. -/
def endAround (b x y : Nat) : Nat := if x + y < b then x + y else x + y - b + 1

/-- The end-around-carry sum of digits. -/
def sum (b : Nat) (digits : List Nat) : Nat := digits.foldl (endAround b) 0

/-- The digit that is zero only for zero and otherwise congruent to `n` modulo `b - 1`. -/
def residue (b n : Nat) : Nat := if n = 0 then 0 else (n - 1) % (b - 1) + 1

/-- A residue is one digit of the base. -/
theorem residue_lt (hb : 2 ≤ b) (n : Nat) : residue b n < b := by
  rw [residue]
  split
  · omega
  · have hmod := Nat.mod_lt (n - 1) (show b - 1 > 0 by omega)
    omega

private theorem residue_eq_zero_iff {n : Nat} : residue b n = 0 ↔ n = 0 := by
  rw [residue]
  split
  · next h => simp only [h]
  · next h => simp only [h, Nat.succ_ne_zero]

private theorem residue_modEq (b n : Nat) : residue b n ≡ n [MOD b - 1] := by
  rw [residue]
  split
  · next h => rw [h]
  · next h =>
    have hstep := (Nat.mod_modEq (n - 1) (b - 1)).add_right 1
    rwa [Nat.sub_add_cancel (Nat.pos_of_ne_zero h)] at hstep

/-- Digits that agree on being zero and modulo `b - 1` are the same. -/
theorem eq_of_modEq {x y : Nat} (hx : x < b) (hy : y < b) (hzero : x = 0 ↔ y = 0)
    (h : x ≡ y [MOD b - 1]) : x = y := by
  by_cases hx0 : x = 0
  · rw [hx0, hzero.mp hx0]
  · have hy0 : y ≠ 0 := fun hy0 => hx0 (hzero.mpr hy0)
    have hpred : x - 1 ≡ y - 1 [MOD b - 1] := by
      apply Nat.ModEq.add_right_cancel' 1
      rwa [Nat.sub_add_cancel (Nat.pos_of_ne_zero hx0), Nat.sub_add_cancel (Nat.pos_of_ne_zero hy0)]
    have heq := hpred.eq_of_lt_of_lt (by omega) (by omega)
    omega

private theorem residue_congr (hb : 2 ≤ b) {m n : Nat} (hzero : m = 0 ↔ n = 0)
    (h : m ≡ n [MOD b - 1]) :
    residue b m = residue b n := by
  refine eq_of_modEq (residue_lt hb m) (residue_lt hb n) ?_ ?_
  · rw [residue_eq_zero_iff, residue_eq_zero_iff, hzero]
  · exact ((residue_modEq b m).trans h).trans (residue_modEq b n).symm

/-- A number of one digit is its own residue. -/
theorem residue_of_lt {n : Nat} (h : n < b) : residue b n = n := by
  by_cases hn : n = 0
  · rw [hn, residue, if_pos rfl]
  · exact eq_of_modEq (residue_lt (by omega) n) h residue_eq_zero_iff (residue_modEq b n)

/-! ## Folding -/

private theorem base_modEq_one (hb : 2 ≤ b) : b ≡ 1 [MOD b - 1] := by
  have h : b - 1 + 1 ≡ 1 [MOD b - 1] := Nat.add_modEq_right_iff.mpr (Nat.dvd_refl (b - 1))
  rwa [Nat.sub_add_cancel (Nat.le_of_succ_le hb)] at h

private theorem pow_modEq_one (hb : 2 ≤ b) (k : Nat) : b ^ k ≡ 1 [MOD b - 1] := by
  have h := (base_modEq_one hb).pow k
  rwa [Nat.one_pow] at h

/-- Adding what stands above the low `k` digits to these keeps the residue. -/
theorem div_add_mod_modEq (hb : 2 ≤ b) (k n : Nat) :
    n / b ^ k + n % b ^ k ≡ n [MOD b - 1] := by
  have hhigh := (pow_modEq_one hb k).mul_right (n / b ^ k)
  rw [Nat.one_mul] at hhigh
  have h := hhigh.symm.add_right (n % b ^ k)
  rwa [Nat.div_add_mod] at h

/-- One turn of carry folding. -/
theorem residue_fold (hb : 2 ≤ b) (n : Nat) : residue b (n / b + n % b) = residue b n := by
  have hmod := div_add_mod_modEq hb 1 n
  rw [Nat.pow_one] at hmod
  refine residue_congr hb ⟨fun h => ?_, fun h => ?_⟩ hmod
  · have hn := Nat.div_add_mod n b
    rw [(Nat.add_eq_zero_iff.mp h).1, (Nat.add_eq_zero_iff.mp h).2, Nat.mul_zero] at hn
    exact hn.symm
  · rw [h, Nat.zero_div, Nat.zero_mod]

private theorem endAround_eq_residue {x y : Nat} (hx : x < b) (hy : y < b) :
    endAround b x y = residue b (x + y) := by
  rw [endAround]
  split
  · next h => exact (residue_of_lt h).symm
  · next h =>
    have hquot : (x + y) / b = 1 :=
      Nat.div_eq_of_lt_le (by omega) (by omega)
    have hrem : (x + y) % b = x + y - b := by
      rw [Nat.mod_eq_sub_mod (by omega), Nat.mod_eq_of_lt (by omega)]
    rw [← residue_fold (by omega), hquot, hrem, Nat.add_comm 1]
    exact (residue_of_lt (by omega)).symm

private theorem foldl_endAround (hb : 2 ≤ b) {digits : List Nat} (h : ∀ x ∈ digits, x < b)
    (n : Nat) :
    digits.foldl (endAround b) (residue b n) = residue b (n + digits.sum) := by
  induction digits generalizing n with
  | nil => rfl
  | cons x digits ih =>
    have hx : x < b := h x List.mem_cons_self
    have hzero : residue b n + x = 0 ↔ n + x = 0 := by
      rw [Nat.add_eq_zero_iff, Nat.add_eq_zero_iff, residue_eq_zero_iff]
    rw [List.foldl_cons, endAround_eq_residue (residue_lt hb n) hx,
      residue_congr hb hzero ((residue_modEq b n).add_right x),
      ih (fun y hy => h y (List.mem_cons_of_mem x hy)), List.sum_cons, Nat.add_assoc]

/-- The end-around-carry sum is that of the plain sum's digits, however these are folded. -/
theorem sum_eq_residue (hb : 2 ≤ b) {digits : List Nat} (h : ∀ x ∈ digits, x < b) :
    sum b digits = residue b digits.sum := by
  have hfold := foldl_endAround hb h 0
  rwa [residue_of_lt (by omega), Nat.zero_add] at hfold

/-! ## Cutting off -/

/-- A number is cut off above `k` digits at the cost of its residue, as long as what is lost
is less than `b - 1`. -/
theorem residue_mod_pow_iff {k n : Nat} (hb : 2 ≤ b) (h : n < b ^ k * (b - 1)) :
    residue b (n % b ^ k) = residue b n ↔ n < b ^ k := by
  refine ⟨fun heq => ?_, fun hlt => by rw [Nat.mod_eq_of_lt hlt]⟩
  have hpow : 0 < b ^ k := Nat.pow_pos (by omega)
  have hlow : n % b ^ k ≡ n [MOD b - 1] :=
    ((residue_modEq b _).symm.trans (by rw [heq])).trans (residue_modEq b n)
  have hlost : 0 ≡ n / b ^ k [MOD b - 1] := by
    apply Nat.ModEq.add_right_cancel' (n % b ^ k)
    rw [Nat.zero_add]
    exact hlow.trans (div_add_mod_modEq hb k n).symm
  have hquot : n / b ^ k < b - 1 := Nat.div_lt_of_lt_mul h
  have hzero := hlost.eq_of_lt_of_lt (by omega) hquot
  exact Nat.lt_of_div_eq_zero hpow hzero.symm

end ChatRoom.Core.OnesComplement
