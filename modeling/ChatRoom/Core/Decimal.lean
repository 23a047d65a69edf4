import Mathlib.Algebra.Group.Int.Defs
import ChatRoom.Core.Bytes

/-!
# Decimal text

Integers as the bytes of their decimal digits, with a minus sign in front of the
negative ones: what a stream prints for an `int`. Reading the digits back gives the
number, no number but 0 starts with a zero, and a bound on the number bounds the
length of its text. The last section says that `toString` prints the same bytes.
-/

namespace ChatRoom.Core.Decimal

/-- An ASCII digit. -/
def isDigit (c : UInt8) : Bool := 48 ≤ c ∧ c ≤ 57

/-- The digits of a natural number, most significant first. -/
def digits (n : Nat) : Bytes :=
  if n < 10 then [UInt8.ofNat (48 + n)] else digits (n / 10) ++ [UInt8.ofNat (48 + n % 10)]

/-- The decimal text of an integer, with a minus sign before a negative one. -/
def encode : Int → Bytes
  | .ofNat n => digits n
  | .negSucc n => 45 :: digits (n + 1)

/-- The number that a string of digits spells. -/
def value (ds : Bytes) : Nat := ds.foldl (fun n c => 10 * n + (c.toNat - 48)) 0

/-- A number below ten is one digit. -/
theorem digits_of_lt {n : Nat} (h : n < 10) : digits n = [UInt8.ofNat (48 + n)] := by
  rw [digits, if_pos h]

/-- A number below ten is one digit. -/
theorem encode_digit {d : Nat} (h : d < 10) : encode d = [UInt8.ofNat (48 + d)] := digits_of_lt h

/-- The last digit comes behind those of a tenth. -/
theorem digits_of_le {n : Nat} (h : 10 ≤ n) :
    digits n = digits (n / 10) ++ [UInt8.ofNat (48 + n % 10)] := by
  rw [digits, if_neg (Nat.not_lt.mpr h)]

private theorem toNat_digit {d : Nat} (h : d < 10) : (UInt8.ofNat (48 + d)).toNat = 48 + d := by
  rw [UInt8.toNat_ofNat']
  omega

private theorem isDigit_digit {d : Nat} (h : d < 10) : isDigit (UInt8.ofNat (48 + d)) = true := by
  have hd := toNat_digit h
  simp only [isDigit, UInt8.le_iff_toNat_le, hd, decide_eq_true_eq]
  constructor
  · exact Nat.le_add_right 48 d
  · have hnine : (57 : UInt8).toNat = 57 := rfl
    omega

/-- One more digit at the end. -/
theorem value_concat (ds : Bytes) (c : UInt8) :
    value (ds ++ [c]) = 10 * value ds + (c.toNat - 48) := by
  simp only [value, List.foldl_append, List.foldl_cons, List.foldl_nil]

/-- A number is read back from its digits. -/
@[simp] theorem value_digits (n : Nat) : value (digits n) = n := by
  induction n using Nat.strongRecOn with
  | ind n ih =>
    by_cases h : n < 10
    · rw [digits_of_lt h, value, List.foldl_cons, List.foldl_nil, toNat_digit h]
      omega
    · rw [digits_of_le (Nat.le_of_not_lt h), value_concat, ih (n / 10) (by omega),
        toNat_digit (Nat.mod_lt n (by decide))]
      omega

/-- The digits of a number are digits. -/
theorem isDigit_of_mem_digits {n : Nat} : ∀ c ∈ digits n, isDigit c = true := by
  induction n using Nat.strongRecOn with
  | ind n ih =>
    intro c hc
    by_cases h : n < 10
    · rw [digits_of_lt h] at hc
      rw [List.mem_singleton.mp hc]
      exact isDigit_digit h
    · rw [digits_of_le (Nat.le_of_not_lt h)] at hc
      rcases List.mem_append.mp hc with hc | hc
      · exact ih (n / 10) (by omega) c hc
      · rw [List.mem_singleton.mp hc]
        exact isDigit_digit (Nat.mod_lt n (by decide))

/-- Every number has a digit. -/
theorem digits_ne_nil (n : Nat) : digits n ≠ [] := by
  rw [digits]
  split
  · exact List.cons_ne_nil _ _
  · exact List.append_ne_nil_of_right_ne_nil _ (List.cons_ne_nil _ _)

/-- Only 0 is written with a zero in front. -/
theorem head_digits_ne_zero {n : Nat} (h : 0 < n) : (digits n).head? ≠ some 48 := by
  induction n using Nat.strongRecOn with
  | ind n ih =>
    by_cases hn : n < 10
    · rw [digits_of_lt hn, List.head?_cons]
      intro heq
      have hd := congrArg UInt8.toNat (Option.some.inj heq)
      rw [toNat_digit hn] at hd
      have hzero : (48 : UInt8).toNat = 48 := rfl
      omega
    · rw [digits_of_le (Nat.le_of_not_lt hn), List.head?_append_of_ne_nil _ (digits_ne_nil _)]
      exact ih (n / 10) (by omega) (by omega)

/-- A number below the `k`-th power of ten has at most `k` digits. -/
theorem length_digits_le {n k : Nat} (hk : 0 < k) (h : n < 10 ^ k) : (digits n).length ≤ k := by
  induction k generalizing n with
  | zero => omega
  | succ k ih =>
    by_cases hn : n < 10
    · rw [digits_of_lt hn, List.length_singleton]
      omega
    · have hdiv : n / 10 < 10 ^ k := by
        rw [Nat.div_lt_iff_lt_mul (by decide), ← Nat.pow_succ]
        exact h
      have hpos : 0 < k := by
        rcases Nat.eq_zero_or_pos k with rfl | hpos
        · omega
        · exact hpos
      have hlen := ih hpos hdiv
      rw [digits_of_le (Nat.le_of_not_lt hn), List.length_append, List.length_singleton]
      omega

/-- Two numbers with the same digits are the same. -/
theorem digits_injective {a b : Nat} (h : digits a = digits b) : a = b := by
  rw [← value_digits a, h, value_digits]

/-- A power of ten is a one with zeros behind it. -/
theorem digits_ten_pow (k : Nat) : digits (10 ^ k) = 49 :: List.replicate k 48 := by
  induction k with
  | zero => exact digits_of_lt (by decide)
  | succ k ih =>
    have hpos : 0 < 10 ^ k := Nat.pow_pos (by decide)
    rw [Nat.pow_succ, digits_of_le (by omega), Nat.mul_div_cancel _ (by decide), ih,
      Nat.mul_mod_left, List.replicate_succ', List.cons_append]
    rfl

/-- A 32-bit integer takes at most eleven bytes. -/
theorem length_encode_le {n : Int} (hlow : -2 ^ 31 ≤ n) (hhigh : n < 2 ^ 31) :
    (encode n).length ≤ 11 := by
  cases n with
  | ofNat n =>
    have hlen := length_digits_le (n := n) (k := 10) (by decide) (by
      rw [Int.ofNat_eq_natCast] at hhigh
      omega)
    rw [encode]
    omega
  | negSucc n =>
    have hlen := length_digits_le (n := n + 1) (k := 10) (by decide) (by omega)
    rw [encode, List.length_cons]
    omega

/-! ## The bytes of `toString` -/

private theorem toList_loop (bs : ByteArray) (i : Nat) (r : List UInt8) :
    ByteArray.toList.loop bs i r = r.reverse ++ bs.data.toList.drop i := by
  induction hk : bs.size - i generalizing i r with
  | zero =>
    rw [ByteArray.toList.loop, if_neg (by omega), List.drop_eq_nil_of_le, List.append_nil]
    rw [Array.length_toList]
    exact Nat.le_of_sub_eq_zero hk
  | succ k ih =>
    have hi : i < bs.size := by omega
    have hget : bs.get! i = bs.data.toList[i] := by
      simp [ByteArray.get!, hi]
    rw [ByteArray.toList.loop, if_pos hi, ih (i + 1) _ (by omega), List.reverse_cons,
      List.append_assoc, List.singleton_append, hget, ← List.drop_eq_getElem_cons]

private theorem toList_eq (bs : ByteArray) : bs.toList = bs.data.toList := by
  rw [ByteArray.toList, toList_loop]
  rfl

/-- The bytes of a string are those of its characters, one after the other. -/
theorem utf8_ofList (cs : List Char) :
    (String.ofList cs).toUTF8.toList = cs.flatMap String.utf8EncodeChar := by
  rw [toList_eq, String.toUTF8_eq_toByteArray, String.toByteArray_ofList, List.utf8Encode,
    List.toList_data_toByteArray]

private theorem utf8_digitChar {d : Nat} (h : d < 10) :
    String.utf8EncodeChar (Nat.digitChar d) = [UInt8.ofNat (48 + d)] := by
  have hall : ∀ d : Fin 10, String.utf8EncodeChar (Nat.digitChar d.val) =
      [UInt8.ofNat (48 + d.val)] := by
    decide
  exact hall ⟨d, h⟩

private theorem utf8_toDigits (n : Nat) :
    (Nat.toDigits 10 n).flatMap String.utf8EncodeChar = digits n := by
  induction n using Nat.strongRecOn with
  | ind n ih =>
    by_cases h : n < 10
    · rw [Nat.toDigits_of_lt_base h, digits_of_lt h, List.flatMap_singleton, utf8_digitChar h]
    · rw [Nat.toDigits_of_base_le (by decide) (Nat.le_of_not_lt h), List.flatMap_append,
        ih (n / 10) (by omega), List.flatMap_singleton, utf8_digitChar (Nat.mod_lt n (by decide)),
        digits_of_le (Nat.le_of_not_lt h)]

/-- `toString` of an integer is its decimal text. -/
theorem utf8_toString (n : Int) : (toString n).toUTF8.toList = encode n := by
  cases n with
  | ofNat n =>
    have hprint : toString (Int.ofNat n) = String.ofList (Nat.toDigits 10 n) := rfl
    rw [hprint, utf8_ofList, utf8_toDigits, encode]
  | negSucc n =>
    have hprint : toString (Int.negSucc n) = "-" ++ String.ofList (Nat.toDigits 10 (n + 1)) := rfl
    have hminus : "-" = String.ofList ['-'] := rfl
    rw [hprint, hminus, ← String.ofList_append, utf8_ofList, List.flatMap_append, utf8_toDigits,
      encode]
    rfl

end ChatRoom.Core.Decimal
