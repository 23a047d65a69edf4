import ChatRoom.Core.Varint
import ChatRoom.Net.ProtocolStream

/-!
# The stream classes read what they write

The loops of `write7BitEncoded` and `read7BitEncoded` are the base-128 codec, for
both widths. Each reader operation is described by the bytes left to read: when
these start with the image of a value, the value is returned and the rest is
left.
-/

namespace ChatRoom.Net

open ChatRoom.Core

/-! ## Single bytes -/

/-- The top bit of a byte is clear exactly below 128. -/
theorem and_top_eq_zero_iff (c : UInt8) : c &&& 0x80 = 0 ↔ c.toNat < 128 := by
  have hall : ∀ n : Fin 256, UInt8.ofNat n.val &&& 0x80 = 0 ↔ n.val < 128 := by
    decide +kernel
  have h := hall ⟨c.toNat, c.toNat_lt⟩
  simpa only [UInt8.ofNat_toNat] using h

private theorem toNat_and_low (c : UInt8) : (c &&& 0x7F).toNat = c.toNat % 128 := by
  rw [UInt8.toNat_and]
  exact Nat.and_two_pow_sub_one_eq_mod c.toNat 7

private theorem ofNat_or_top {n : Nat} (h : n < 128) :
    UInt8.ofNat n ||| 0x80 = UInt8.ofNat (n + 128) := by
  have hall : ∀ k : Fin 128, UInt8.ofNat k.val ||| 0x80 = UInt8.ofNat (k.val + 128) := by
    decide +kernel
  exact hall ⟨n, h⟩

/-! ## The base-128 loops -/

private theorem toNat_and_127 {w : Nat} (hw : 7 ≤ w) (v : BitVec w) :
    (v &&& 0x7F#w).toNat = v.toNat % 128 := by
  have hpow : 2 ^ 7 ≤ 2 ^ w := Nat.pow_le_pow_right (by decide) hw
  rw [BitVec.toNat_and, BitVec.toNat_ofNat, Nat.mod_eq_of_lt (show 127 < 2 ^ w by omega)]
  exact Nat.and_two_pow_sub_one_eq_mod v.toNat 7

private theorem toNat_shiftRight_7 {w : Nat} (v : BitVec w) : (v >>> 7).toNat = v.toNat / 128 := by
  rw [BitVec.toNat_ushiftRight, Nat.shiftRight_eq_div_pow]

/-- With a turn for every seven bits, the writer's loop is the shortest encoding. -/
theorem write7BitLoop_eq {w fuel : Nat} (hw : 7 ≤ w) (hfuel : 0 < fuel) (v : BitVec w)
    (h : v.toNat < 128 ^ fuel) : write7BitLoop fuel v = Varint.encode v.toNat := by
  induction fuel generalizing v with
  | zero => omega
  | succ fuel ih =>
    have hdiv := toNat_shiftRight_7 v
    have hzero : v >>> 7 = 0#w ↔ v.toNat < 128 := by
      rw [← BitVec.toNat_inj, hdiv, BitVec.toNat_ofNat, Nat.zero_mod]
      omega
    rw [write7BitLoop]
    simp only [toNat_and_127 hw, ne_eq, hzero]
    by_cases hv : v.toNat < 128
    · rw [if_neg (not_not_intro hv), Varint.encode_of_lt hv, Nat.mod_eq_of_lt hv]
    · have hsmall : v.toNat / 128 < 128 ^ fuel := by
        rw [Nat.div_lt_iff_lt_mul (by decide), ← Nat.pow_succ]
        exact h
      have hpos : 0 < fuel := by
        rcases Nat.eq_zero_or_pos fuel with rfl | hpos
        · omega
        · exact hpos
      rw [if_pos hv, Varint.encode_of_le (by omega), ofNat_or_top (Nat.mod_lt _ (by decide)),
        ih hpos (v >>> 7) (by rw [hdiv]; exact hsmall), hdiv]

/-- Both overloads of the writer emit the shortest base-128 encoding. -/
theorem write7BitEncoded_eq {w : Nat} (hw : 7 ≤ w) (v : BitVec w) :
    write7BitEncoded v = Varint.encode v.toNat := by
  refine write7BitLoop_eq hw (by omega) v ?_
  exact Nat.lt_of_lt_of_le v.isLt (Nat.pow_le_pow_left (by decide) w)

private theorem ofNat_shiftLeft {w : Nat} (a k : Nat) :
    BitVec.ofNat w a <<< k = BitVec.ofNat w (a * 2 ^ k) := by
  apply BitVec.eq_of_toNat_eq
  rw [BitVec.toNat_shiftLeft, BitVec.toNat_ofNat, BitVec.toNat_ofNat, Nat.shiftLeft_eq,
    Nat.mod_mul_mod]

/-- The reader's loop adds up a complete encoding, whatever follows it. -/
theorem read7BitLoop_terminated {w : Nat} {bs : Bytes} (h : Varint.Terminated bs) (rest : Bytes)
    (k : Nat) (v : BitVec w) :
    read7BitLoop (bs ++ rest) k v = some (v + BitVec.ofNat w (Varint.value bs * 2 ^ k)) := by
  induction h generalizing k v with
  | @last c hc =>
    rw [List.cons_append, read7BitLoop]
    simp only [(and_top_eq_zero_iff c).mpr hc, if_true, toNat_and_low, ofNat_shiftLeft,
      Varint.value, Nat.mul_zero, Nat.add_zero]
  | @more c tail hc _ ih =>
    have htop : ¬ c &&& 0x80 = 0 := by rw [and_top_eq_zero_iff]; omega
    have hsum : (c.toNat % 128 + 128 * Varint.value tail) * 2 ^ k =
        c.toNat % 128 * 2 ^ k + Varint.value tail * 2 ^ (k + 7) := by
      rw [Nat.pow_add, Nat.add_mul, Nat.mul_comm 128, Nat.mul_assoc, Nat.mul_comm 128]
    rw [List.cons_append, read7BitLoop]
    simp only [htop, if_false, ih, toNat_and_low, ofNat_shiftLeft, Varint.value]
    rw [hsum, BitVec.ofNat_add, BitVec.add_assoc]

/-- Reading an encoding back gives the value, within the width of the reader. -/
theorem read7BitEncoded_encode {w : Nat} (n : Nat) (rest : Bytes) :
    read7BitEncoded (Varint.encode n ++ rest) = some (BitVec.ofNat w n) := by
  rw [read7BitEncoded, read7BitLoop_terminated (Varint.encode_terminated n), Varint.value_encode,
    Nat.pow_zero, Nat.mul_one, BitVec.zero_add]

namespace BinaryStreamReader

/-- The bytes from the cursor to the end of the packet. -/
def rest (r : BinaryStreamReader) : Bytes := r.data.drop r.cur

/-- What is left begins at the cursor. -/
theorem slice_of_rest {r : BinaryStreamReader} {bs tail : Bytes} (h : r.rest = bs ++ tail) :
    slice r.data r.cur (r.cur + bs.length) = bs := by
  rw [slice, List.drop_take, ← rest, h, Nat.add_sub_cancel_left, List.take_left]

/-- What is left lies inside the packet. -/
theorem bound_of_rest {r : BinaryStreamReader} {bs tail : Bytes} (h : r.rest = bs ++ tail)
    (hne : bs ≠ []) : r.cur + bs.length ≤ r.data.length := by
  have hlen := congrArg List.length h
  have hpos := List.length_pos_iff.mpr hne
  rw [rest, List.length_drop, List.length_append] at hlen
  omega

/-- The cursor moves past what has been read. -/
theorem rest_skip {r : BinaryStreamReader} {bs tail : Bytes} (h : r.rest = bs ++ tail) :
    ({ r with cur := r.cur + bs.length } : BinaryStreamReader).rest = tail := by
  simp only [rest, ← List.drop_drop]
  rw [← rest, h, List.drop_left]

private theorem lengthBytes_terminated {r : BinaryStreamReader} {bs tail : Bytes} {fuel i : Nat}
    (h : Varint.Terminated bs) (hr : r.data.drop i = bs ++ tail) (hf : bs.length ≤ fuel) :
    r.lengthBytes fuel i = bs := by
  have hread : ∀ {c : UInt8} {more : Bytes} {j : Nat}, r.data.drop j = c :: more →
      r.byteAt j = c := by
    intro c more j hj
    have hget : r.data[j]? = some c := by
      rw [← Nat.add_zero j, ← List.getElem?_drop, hj, List.getElem?_cons_zero]
    simp only [byteAt, List.getD_eq_getElem?_getD, hget, Option.getD_some]
  induction h generalizing fuel i with
  | @last c hc =>
    obtain ⟨fuel, rfl⟩ := Nat.exists_eq_succ_of_ne_zero (show fuel ≠ 0 by
      rw [List.length_singleton] at hf; omega)
    rw [lengthBytes]
    simp only [hread hr, (and_top_eq_zero_iff c).mpr hc, if_true]
  | @more c bs hc _ ih =>
    obtain ⟨fuel, rfl⟩ := Nat.exists_eq_succ_of_ne_zero (show fuel ≠ 0 by
      rw [List.length_cons] at hf; omega)
    have htop : ¬ c &&& 0x80 = 0 := by rw [and_top_eq_zero_iff]; omega
    have hnext : r.data.drop (i + 1) = bs ++ tail := by
      rw [← List.drop_drop, hr, List.cons_append, List.drop_one, List.tail_cons]
    rw [lengthBytes]
    simp only [hread hr, htop, if_false]
    rw [ih hnext (by rw [List.length_cons] at hf; omega)]

/-- A length written by either overload is found at the cursor, with its own width. -/
theorem readLengthWithoutOffset_encode {r : BinaryStreamReader} {n : Nat} {tail : Bytes}
    (h : r.rest = Varint.encode n ++ tail) (hn : n < 2 ^ 32) :
    r.readLengthWithoutOffset = some ((Varint.encode n).length, n) := by
  have hterm := Varint.encode_terminated n
  have hshort : (Varint.encode n).length ≤ 5 :=
    Varint.length_encode_le (by decide) (Nat.lt_of_lt_of_le hn (by decide))
  have hbound := bound_of_rest h (by rintro hnil; rw [hnil] at hterm; cases hterm)
  have hvalue := read7BitEncoded_encode (w := 32) n []
  rw [List.append_nil] at hvalue
  rw [readLengthWithoutOffset, lengthBytes_terminated hterm h hshort]
  simp only [if_neg (Nat.not_lt.mpr hbound), hvalue, Option.getD_some, BitVec.toNat_ofNat,
    Nat.mod_eq_of_lt hn]

/-- An integer that was written is read back. -/
theorem readInt32_beBytes {r : BinaryStreamReader} {x : BitVec 32} {tail : Bytes}
    (h : r.rest = beBytes 4 x.toNat ++ tail) :
    r.readInt32 = ({ r with cur := r.cur + 4 }, some x) ∧
      ({ r with cur := r.cur + 4 } : BinaryStreamReader).rest = tail := by
  have hlen := length_beBytes 4 x.toNat
  have hbound := bound_of_rest h (by intro hnil; rw [hnil] at hlen; cases hlen)
  have hslice := slice_of_rest h
  have hskip := rest_skip h
  rw [hlen] at hbound hslice hskip
  refine ⟨?_, hskip⟩
  rw [readInt32, if_neg (Nat.not_lt.mpr hbound), hslice,
    beNat_beBytes_of_lt (Nat.lt_of_lt_of_le x.isLt (by decide)), BitVec.ofNat_toNat,
    BitVec.setWidth_eq]

/-- A string that was written with its length is read back. -/
theorem readString_encode {r : BinaryStreamReader} {s tail : Bytes}
    (h : r.rest = Varint.encode s.length ++ (s ++ tail)) (hs : s.length < 2 ^ 32) :
    r.readString 0 =
      ({ r with cur := r.cur + (Varint.encode s.length).length + s.length }, some s) := by
  have hlen := congrArg List.length h
  rw [rest, List.length_drop, List.length_append, List.length_append] at hlen
  have hterm := Varint.encode_terminated s.length
  have hbound := bound_of_rest h (by rintro hnil; rw [hnil] at hterm; cases hterm)
  have hslice := slice_of_rest (rest_skip h)
  simp only at hslice
  rw [readString, readLengthWithoutOffset_encode h hs]
  simp only [ne_eq, not_true_eq_false, false_and, if_false]
  rw [if_neg (by omega), hslice]

end BinaryStreamReader

end ChatRoom.Net
