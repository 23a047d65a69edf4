import ChatRoom.Core.Bytes

/-!
# Base-128 integers

Seven bits a byte, least significant group first; the top bit of every byte but
the last is set. `Terminated` is the shape of a complete encoding: a reader that
stops at the first clear top bit stops at its end, so no encoding is a proper
prefix of another.
-/

namespace ChatRoom.Core.Varint

/-- The shortest encoding of `n`. -/
def encode (n : Nat) : Bytes :=
  if n < 128 then [UInt8.ofNat n] else UInt8.ofNat (n % 128 + 128) :: encode (n / 128)

/-- The number spelt by the low seven bits of the bytes. -/
def value : Bytes → Nat
  | [] => 0
  | c :: rest => c.toNat % 128 + 128 * value rest

/-- The top bit is set on every byte but the last. -/
inductive Terminated : Bytes → Prop where
  | last {c : UInt8} (h : c.toNat < 128) : Terminated [c]
  | more {c : UInt8} {rest : Bytes} (h : 128 ≤ c.toNat) (hrest : Terminated rest) :
      Terminated (c :: rest)

/-- A number of seven bits is one byte. -/
theorem encode_of_lt {n : Nat} (h : n < 128) : encode n = [UInt8.ofNat n] := by
  rw [encode, if_pos h]

/-- The low seven bits come first, with the top bit set. -/
theorem encode_of_le {n : Nat} (h : 128 ≤ n) :
    encode n = UInt8.ofNat (n % 128 + 128) :: encode (n / 128) := by
  rw [encode, if_neg (by omega)]

/-- Only the last byte of a number has its top bit clear. -/
theorem encode_terminated (n : Nat) : Terminated (encode n) := by
  induction n using Nat.strongRecOn with
  | ind n ih =>
    by_cases h : n < 128
    · rw [encode_of_lt h]
      exact .last (by rw [UInt8.toNat_ofNat']; omega)
    · rw [encode_of_le (by omega)]
      exact .more (by rw [UInt8.toNat_ofNat']; omega) (ih (n / 128) (by omega))

/-- A terminated number has a byte. -/
theorem Terminated.length_pos {bs : Bytes} (h : Terminated bs) : 0 < bs.length := by
  cases h <;> exact Nat.zero_lt_succ _

/-- The byte at a place has a clear top bit exactly when the encoding ends there. -/
theorem Terminated.getElem_lt_iff {bs : Bytes} (h : Terminated bs) (i : Nat) (hi : i < bs.length) :
    bs[i].toNat < 128 ↔ i + 1 = bs.length := by
  induction h generalizing i with
  | @last c hc =>
    rw [List.length_singleton] at hi ⊢
    have hzero : i = 0 := Nat.lt_one_iff.mp hi
    subst hzero
    exact ⟨fun _ => rfl, fun _ => hc⟩
  | @more c rest hc hrest ih =>
    cases i with
    | zero =>
      have hpos := hrest.length_pos
      rw [List.getElem_cons_zero, List.length_cons]
      omega
    | succ i =>
      rw [List.getElem_cons_succ, List.length_cons, ih i (Nat.lt_of_succ_lt_succ hi)]
      exact Nat.succ_inj.symm

/-- No complete encoding is a proper prefix of another. -/
theorem Terminated.eq_of_prefix {a b : Bytes} (ha : Terminated a) (hb : Terminated b)
    (h : a <+: b) : a = b := by
  induction ha generalizing b with
  | @last c hc =>
    cases hb with
    | last => rw [(List.cons_prefix_cons.mp h).1]
    | more hc' =>
      rw [(List.cons_prefix_cons.mp h).1] at hc
      exact absurd hc (Nat.not_lt.mpr hc')
  | @more c rest hc hrest ih =>
    cases hb with
    | last hc' =>
      rw [(List.cons_prefix_cons.mp h).1] at hc
      exact absurd hc' (Nat.not_lt.mpr hc)
    | more hc' hrest' =>
      obtain ⟨hhead, htail⟩ := List.cons_prefix_cons.mp h
      rw [hhead, ih hrest' htail]

/-- A number is read back from its bytes. -/
@[simp] theorem value_encode (n : Nat) : value (encode n) = n := by
  induction n using Nat.strongRecOn with
  | ind n ih =>
    by_cases h : n < 128
    · rw [encode_of_lt h, value, value, UInt8.toNat_ofNat']
      omega
    · rw [encode_of_le (by omega), value, ih (n / 128) (by omega), UInt8.toNat_ofNat']
      omega

/-- Two numbers with the same bytes are the same. -/
theorem encode_injective {m n : Nat} (h : encode m = encode n) : m = n := by
  rw [← value_encode m, h, value_encode]

/-- A value of at most `7 * k` bits takes at most `k` bytes. -/
theorem length_encode_le {n k : Nat} (hk : 0 < k) (h : n < 128 ^ k) : (encode n).length ≤ k := by
  induction k generalizing n with
  | zero => omega
  | succ k ih =>
    by_cases hn : n < 128
    · rw [encode_of_lt hn, List.length_singleton]
      omega
    · rw [encode_of_le (by omega), List.length_cons]
      have hpos : 0 < k := by
        rcases Nat.eq_zero_or_pos k with rfl | hpos
        · omega
        · exact hpos
      have hdiv : n / 128 < 128 ^ k := by
        rw [Nat.div_lt_iff_lt_mul (by decide), ← Nat.pow_succ]
        exact h
      have hlen := ih hpos hdiv
      omega

end ChatRoom.Core.Varint
