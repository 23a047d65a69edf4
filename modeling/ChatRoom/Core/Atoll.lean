import Mathlib.Algebra.Group.Int.Defs
import Mathlib.Data.List.Induction
import ChatRoom.Core.Decimal

/-!
# Numbers at the front of a text

`atoll` skips white space, takes a sign and then digits up to the first byte that
is none, so a text that nothing terminates is read on into whatever follows it. A
number outside the 64-bit range becomes the nearest end of that range. Behind the
text of a number the digits that follow are taken as more digits of it.
-/

namespace ChatRoom.Core

/-- `isspace` in the C locale. -/
def isSpace (c : UInt8) : Bool := c = 32 ∨ 9 ≤ c ∧ c ≤ 13

/-- The 64-bit integer nearest to a number. -/
def clamp64 (n : Int) : BitVec 64 :=
  if n < -2 ^ 63 then BitVec.intMin 64
  else if 2 ^ 63 ≤ n then BitVec.intMax 64
  else BitVec.ofInt 64 n

/-- `atoll` on the bytes up to the end of the array; `none` when no byte ends the number. -/
def atoll (s : Bytes) : Option (BitVec 64) :=
  let s := s.dropWhile isSpace
  let negative : Bool := s.head? = some 45
  let s := if negative ∨ s.head? = some 43 then s.tail else s
  let ds := s.takeWhile Decimal.isDigit
  if s.length = ds.length then none
  else some (clamp64 (if negative then -Decimal.value ds else Decimal.value ds))

/-! ## Digits after digits -/

namespace Decimal

/-- More digits behind a number multiply it by a power of ten. -/
theorem value_append (a b : Bytes) : value (a ++ b) = value a * 10 ^ b.length + value b := by
  induction b using List.reverseRecOn with
  | nil => simp only [List.append_nil, List.length_nil, Nat.pow_zero, Nat.mul_one, value,
      List.foldl_nil, Nat.add_zero]
  | append_singleton b c ih =>
    rw [← List.append_assoc, value_concat, value_concat, ih, List.length_append,
      List.length_singleton, Nat.pow_succ, Nat.mul_add, Nat.mul_comm 10 (value a * _),
      Nat.mul_assoc, Nat.add_assoc]

private theorem toNat_of_isDigit {c : UInt8} (h : isDigit c = true) :
    48 ≤ c.toNat ∧ c.toNat ≤ 57 := by
  simpa only [isDigit, UInt8.le_iff_toNat_le, decide_eq_true_eq, UInt8.reduceToNat] using h

/-- Only zeros spell zero. -/
theorem value_eq_zero_iff {ds : Bytes} (h : ∀ c ∈ ds, isDigit c = true) :
    value ds = 0 ↔ ∀ c ∈ ds, c = 48 := by
  induction ds using List.reverseRecOn with
  | nil => simp [value]
  | append_singleton ds c ih =>
    have hc := toNat_of_isDigit (h c (List.mem_append_right _ List.mem_cons_self))
    have hds := ih fun d hd => h d (List.mem_append_left _ hd)
    have hzero : c.toNat - 48 = 0 ↔ c = 48 := by
      rw [← UInt8.toNat_inj, show (48 : UInt8).toNat = 48 from rfl]
      omega
    simp only [value_concat, Nat.add_eq_zero_iff, Nat.mul_eq_zero, hds, hzero, List.mem_append,
      List.mem_singleton]
    constructor
    · rintro ⟨hleft | hleft, rfl⟩ d (hd | rfl)
      · exact absurd hleft (by decide)
      · exact absurd hleft (by decide)
      · exact hleft d hd
      · rfl
    · intro hall
      exact ⟨Or.inr fun d hd => hall d (Or.inl hd), hall c (Or.inr rfl)⟩

private theorem takeWhile_digits (n : Nat) (rest : Bytes) :
    (digits n ++ rest).takeWhile isDigit = digits n ++ rest.takeWhile isDigit :=
  List.takeWhile_append_of_pos fun _ hc => isDigit_of_mem_digits _ hc

/-- The first byte of a number's digits, which is neither a space nor a sign. -/
theorem digits_eq_cons (n : Nat) : ∃ c ds, digits n = c :: ds ∧ isDigit c = true := by
  cases hd : digits n with
  | nil => exact absurd hd (digits_ne_nil n)
  | cons c ds =>
    refine ⟨c, ds, rfl, isDigit_of_mem_digits (n := n) c ?_⟩
    rw [hd]
    exact List.mem_cons_self

end Decimal

private theorem isSpace_of_isDigit {c : UInt8} (h : Decimal.isDigit c = true) :
    isSpace c = false := by
  have hc := Decimal.toNat_of_isDigit h
  simp only [isSpace, ← UInt8.toNat_inj, UInt8.le_iff_toNat_le, decide_eq_false_iff_not]
  simp only [UInt8.reduceToNat]
  omega

/-- The number that `atoll` reads when bytes follow the text of `n`: `more` are the digits
among them, up to the first that is none. -/
def extended (n : Int) (more : Bytes) : Int :=
  if n < 0 then n * 10 ^ more.length - Decimal.value more
  else n * 10 ^ more.length + Decimal.value more

private theorem atoll_digits (n : Nat) (rest : Bytes) :
    atoll (Decimal.digits n ++ rest) =
      if rest.length = (rest.takeWhile Decimal.isDigit).length then none
      else some (clamp64 (extended n (rest.takeWhile Decimal.isDigit))) := by
  obtain ⟨c, ds, hd, hc⟩ := Decimal.digits_eq_cons n
  have hdrop : (Decimal.digits n ++ rest).dropWhile isSpace = Decimal.digits n ++ rest := by
    rw [hd, List.cons_append, List.dropWhile_cons_of_neg (by rw [isSpace_of_isDigit hc]; decide)]
  have hhead : (Decimal.digits n ++ rest).head? = some c := by
    rw [hd, List.cons_append, List.head?_cons]
  have hc' := Decimal.toNat_of_isDigit hc
  have hminus : c ≠ 45 := by rintro rfl; exact absurd hc (by decide)
  have hplus : c ≠ 43 := by rintro rfl; exact absurd hc (by decide)
  simp only [atoll, hdrop, hhead, Option.some.injEq, hminus, hplus, decide_false, Bool.false_eq_true,
    or_self, if_false, Decimal.takeWhile_digits, List.length_append, Nat.add_left_cancel_iff,
    Decimal.value_append, Decimal.value_digits, extended]
  rw [if_neg (show ¬ (n : Int) < 0 by omega), Int.natCast_add, Int.natCast_mul, Int.natCast_pow]
  rfl

/-- The text of a number is read together with the digits behind it. -/
theorem atoll_encode (n : Int) (rest : Bytes) :
    atoll (Decimal.encode n ++ rest) =
      if rest.length = (rest.takeWhile Decimal.isDigit).length then none
      else some (clamp64 (extended n (rest.takeWhile Decimal.isDigit))) := by
  cases n with
  | ofNat n => exact atoll_digits n rest
  | negSucc n =>
    have hdrop : (Decimal.encode (.negSucc n) ++ rest).dropWhile isSpace =
        45 :: (Decimal.digits (n + 1) ++ rest) := by
      rw [Decimal.encode, List.cons_append, List.dropWhile_cons_of_neg (by decide)]
    simp only [atoll, hdrop, List.head?_cons, decide_true, true_or, if_true, List.tail_cons,
      Decimal.takeWhile_digits, List.length_append, Nat.add_left_cancel_iff,
      Decimal.value_append, Decimal.value_digits, extended, Int.negSucc_lt_zero]
    rw [Int.natCast_add, Int.natCast_mul, Int.natCast_pow, Int.neg_add, ← Int.sub_eq_add_neg,
      Int.neg_mul_eq_neg_mul]
    rfl

/-! ## When the number comes back -/

private theorem clamp64_eq_iff {n : Int} {v : BitVec 64} :
    clamp64 n = v ↔ n = v.toInt ∨ v = BitVec.intMax 64 ∧ 2 ^ 63 ≤ n ∨
      v = BitVec.intMin 64 ∧ n < -2 ^ 63 := by
  have hlow := BitVec.le_toInt v
  have hhigh := BitVec.toInt_lt (x := v)
  rw [clamp64]
  by_cases hmin : n < -2 ^ 63
  · rw [if_pos hmin, eq_comm]
    constructor
    · intro hv
      exact Or.inr (Or.inr ⟨hv, hmin⟩)
    · rintro (hv | ⟨-, hn⟩ | ⟨hv, -⟩)
      · omega
      · omega
      · exact hv
  · by_cases hmax : 2 ^ 63 ≤ n
    · rw [if_neg hmin, if_pos hmax, eq_comm]
      constructor
      · intro hv
        exact Or.inr (Or.inl ⟨hv, hmax⟩)
      · rintro (hv | ⟨hv, -⟩ | ⟨-, hn⟩)
        · omega
        · exact hv
        · omega
    · have hint : (BitVec.ofInt 64 n).toInt = n := by
        rw [BitVec.toInt_ofInt]
        exact Int.bmod_eq_of_le (by omega) (by omega)
      rw [if_neg hmin, if_neg hmax, ← BitVec.toInt_inj, hint]
      constructor
      · exact Or.inl
      · rintro (hv | ⟨-, hn⟩ | ⟨-, hn⟩)
        · exact hv
        · omega
        · omega

/-- Further digits change a number, except that zeros behind 0 keep it 0 and that the ends of
the 64-bit range are where every longer number is cut off. -/
theorem clamp64_extended_iff {v : BitVec 64} {more : Bytes}
    (h : ∀ c ∈ more, Decimal.isDigit c = true) :
    clamp64 (extended v.toInt more) = v ↔
      more = [] ∨ v = BitVec.intMax 64 ∨ v = BitVec.intMin 64 ∨ v = 0 ∧ ∀ c ∈ more, c = 48 := by
  have hmax : (BitVec.intMax 64).toInt = 2 ^ 63 - 1 := by decide
  have hmin : (BitVec.intMin 64).toInt = -2 ^ 63 := by decide
  have hv : v = 0 ↔ v.toInt = 0 := by
    rw [← BitVec.toInt_inj]
    rfl
  have hlow := BitVec.le_toInt v
  have hhigh := BitVec.toInt_lt (x := v)
  rw [clamp64_eq_iff, ← Decimal.value_eq_zero_iff h, hv, ← BitVec.toInt_inj, hmax,
    ← BitVec.toInt_inj, hmin, extended]
  cases more with
  | nil => simp [Decimal.value]
  | cons c more =>
    have hpow : (10 : Int) ≤ 10 ^ (c :: more).length := by
      rw [List.length_cons, Int.pow_succ, Int.mul_comm]
      have hone : 0 < (10 : Int) ^ more.length := Int.pow_pos (by decide)
      omega
    have hnil : c :: more ≠ [] := List.cons_ne_nil c more
    generalize (10 : Int) ^ (c :: more).length = p at hpow
    generalize Decimal.value (c :: more) = m
    generalize v.toInt = n at hlow hhigh
    by_cases hneg : n < 0
    · have hmul : n * p ≤ n * 10 := Int.mul_le_mul_of_nonpos_left (by omega) hpow
      simp only [if_pos hneg, hnil, false_or]
      omega
    · have hmul : n * 10 ≤ n * p := Int.mul_le_mul_of_nonneg_left hpow (by omega)
      have hzero : n = 0 → n * p = 0 := by
        rintro rfl
        exact Int.zero_mul p
      simp only [if_neg hneg, hnil, false_or]
      omega

end ChatRoom.Core
