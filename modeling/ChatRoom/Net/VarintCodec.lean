import ChatRoom.Core.Traced
import ChatRoom.Net.StreamCodec

/-!
# The base-128 codec, width by width

`write7BitEncoded` and `read7BitEncoded` have an overload for each of two widths, and
the wire mixes them: `WriteCString` writes a `size_t` and `ReadLengthWithoutOffset`
reads an `unsigned int`. The reader is run once more with a record of the bytes it looks
at and of the shifts it makes, since a byte too many or a shift by the whole width would
not show in the value.
-/

namespace ChatRoom.Net

open ChatRoom.Core

/-- The loop of `read7BitEncoded`, recording the index and the shift of each turn. -/
def read7BitTurns {w : Nat} :
    Bytes → Nat → Nat → BitVec w → Traced (Nat × Nat) (Option (BitVec w))
  | [], _, _, _ => .pure none
  | c :: rest, index, bitCount, value =>
    Traced.bind
      ⟨value + (BitVec.ofNat w (c &&& 0x7F).toNat <<< bitCount), [(index, bitCount)]⟩ fun value =>
        if c &&& 0x80 = 0 then .pure (some value)
        else read7BitTurns rest (index + 1) (bitCount + 7) value

private theorem read7BitTurns_value {w : Nat} (buf : Bytes) (index bitCount : Nat)
    (value : BitVec w) :
    (read7BitTurns buf index bitCount value).value = read7BitLoop buf bitCount value := by
  induction buf generalizing index bitCount value with
  | nil => rfl
  | cons c rest ih =>
    rw [read7BitTurns, read7BitLoop, Traced.bind_value]
    by_cases hc : c &&& 0x80 = 0
    · simp only [if_pos hc]
      rfl
    · simp only [if_neg hc]
      exact ih _ _ _

/-- `read7BitEncoded` with the record of its turns. -/
def read7BitEncodedTurns {w : Nat} (buf : Bytes) : Traced (Nat × Nat) (Option (BitVec w)) :=
  read7BitTurns buf 0 0 0#w

/-- In front of anything, a complete encoding is read in one turn a byte. -/
theorem read7BitTurns_terminated {w : Nat} {bs : Bytes} (h : Varint.Terminated bs) (rest : Bytes)
    (index bitCount : Nat) (value : BitVec w) :
    (read7BitTurns (bs ++ rest) index bitCount value).accesses =
      (List.range bs.length).map fun i => (index + i, bitCount + 7 * i) := by
  induction h generalizing index bitCount value with
  | @last c hc =>
    have hclear := (and_top_eq_zero_iff c).mpr hc
    rw [List.cons_append, read7BitTurns]
    simp only [Traced.bind, if_pos hclear]
    rfl
  | @more c bs hc _ ih =>
    have hset : ¬ c &&& 0x80 = 0 := by
      rw [and_top_eq_zero_iff]
      exact Nat.not_lt.mpr hc
    rw [List.cons_append, read7BitTurns]
    simp only [Traced.bind, if_neg hset, ih]
    rw [List.length_cons, List.range_succ_eq_map, List.map_cons, List.map_map,
      List.singleton_append]
    refine congrArg₂ List.cons rfl ?_
    apply List.map_congr_left
    intro i _
    exact Prod.ext (by simp only [Function.comp_apply]; omega)
      (by simp only [Function.comp_apply]; omega)

/-- What the overloads of one width make of a value, in at most `most` bytes. -/
structure CodecExact {w : Nat} (most : Nat) (v : BitVec w) : Prop where
  /-- There is a byte, and there are no more than `most`. -/
  length : 1 ≤ (write7BitEncoded v).length ∧ (write7BitEncoded v).length ≤ most
  /-- The top bit is clear on the last byte and on no other. -/
  ends : ∀ (i : Nat) (hi : i < (write7BitEncoded v).length),
    (write7BitEncoded v)[i] &&& 0x80 = 0 ↔ i + 1 = (write7BitEncoded v).length
  /-- The bytes start those of no other value. -/
  prefix_free : ∀ v' : BitVec w, write7BitEncoded v <+: write7BitEncoded v' → v = v'
  /-- Whatever follows, the reader returns the value. -/
  reads : ∀ rest : Bytes, read7BitEncoded (write7BitEncoded v ++ rest) = some v
  /-- It looks at these bytes in order and at nothing behind them, shifting by sevens. -/
  inspects : ∀ rest : Bytes,
    (read7BitEncodedTurns (w := w) (write7BitEncoded v ++ rest)).value = some v ∧
      (read7BitEncodedTurns (w := w) (write7BitEncoded v ++ rest)).accesses =
        (List.range (write7BitEncoded v).length).map fun i => (i, 7 * i)
  /-- No shift reaches the width. -/
  shifts : 7 * ((write7BitEncoded v).length - 1) < w

/-- Enough groups for the width, and not one to spare. -/
theorem codecExact_of_groups {w most : Nat} (hw : 7 ≤ w) (hfits : w ≤ 7 * most)
    (htight : 7 * (most - 1) < w) (v : BitVec w) : CodecExact most v := by
  have hpos : 0 < most := by omega
  have hlt : v.toNat < 128 ^ most := by
    calc v.toNat < 2 ^ w := v.isLt
      _ ≤ 2 ^ (7 * most) := Nat.pow_le_pow_right (by decide) hfits
      _ = 128 ^ most := Nat.pow_mul 2 7 most
  have hterm := Varint.encode_terminated v.toNat
  have hlength : (write7BitEncoded v).length ≤ most := by
    rw [write7BitEncoded_eq hw]
    exact Varint.length_encode_le hpos hlt
  have hreads : ∀ rest : Bytes, read7BitEncoded (write7BitEncoded v ++ rest) = some v := by
    intro rest
    rw [write7BitEncoded_eq hw, read7BitEncoded_encode, BitVec.ofNat_toNat, BitVec.setWidth_eq]
  refine ⟨⟨?_, hlength⟩, ?_, ?_, hreads, ?_, by omega⟩
  · rw [write7BitEncoded_eq hw]
    exact hterm.length_pos
  · intro i hi
    rw [and_top_eq_zero_iff]
    simp only [write7BitEncoded_eq hw] at hi ⊢
    exact hterm.getElem_lt_iff i hi
  · intro v' hprefix
    rw [write7BitEncoded_eq hw, write7BitEncoded_eq hw] at hprefix
    have hsame := hterm.eq_of_prefix (Varint.encode_terminated v'.toNat) hprefix
    exact BitVec.eq_of_toNat_eq (Varint.encode_injective hsame)
  · intro rest
    refine ⟨(read7BitTurns_value _ 0 0 0#w).trans (hreads rest), ?_⟩
    rw [read7BitEncodedTurns, write7BitEncoded_eq hw, read7BitTurns_terminated hterm]
    simp only [Nat.zero_add]

/-! ## One width reads what the other wrote -/

/-- The 64-bit writer spends no byte on leading zeros. -/
theorem write7BitEncoded_setWidth (v : BitVec 32) :
    write7BitEncoded (v.setWidth 64) = write7BitEncoded v := by
  rw [write7BitEncoded_eq (by decide), write7BitEncoded_eq (by decide),
    BitVec.toNat_setWidth_of_le (by decide)]

private theorem readLengthWithoutOffset_write {r : BinaryStreamReader} {v : BitVec 32}
    {tail : Bytes}
    (h : r.rest = write7BitEncoded (v.setWidth 64) ++ tail) :
    r.readLengthWithoutOffset = some ((write7BitEncoded v).length, v.toNat) := by
  rw [write7BitEncoded_setWidth, write7BitEncoded_eq (by decide)] at h
  rw [BinaryStreamReader.readLengthWithoutOffset_encode h v.isLt, write7BitEncoded_eq (by decide)]

private theorem writeCString_header (w : BinaryStreamWriter) (str : Bytes) (v : BitVec 32) :
    w.writeCString str (v.setWidth 64) =
      some ⟨w.data ++ write7BitEncoded v ++ str.take v.toNat⟩ := by
  have hfits : ¬ stringMaxSize < (v.setWidth 64).toNat := by
    have hlt := v.isLt
    rw [BitVec.toNat_setWidth_of_le (by decide), stringMaxSize]
    omega
  rw [BinaryStreamWriter.writeCString, if_neg hfits, write7BitEncoded_setWidth,
    BitVec.toNat_setWidth_of_le (by decide)]

/-- Both overloads are exact codecs, and the length that `WriteCString` writes with the
64-bit overload is the one that `ReadLengthWithoutOffset` reads with the 32-bit one. -/
theorem write7Bit_read7Bit_exact (v : BitVec 32) (u : BitVec 64) :
    CodecExact 5 v ∧ CodecExact 10 u ∧
      write7BitEncoded (v.setWidth 64) = write7BitEncoded v ∧
      (∀ (r : BinaryStreamReader) (tail : Bytes),
        r.rest = write7BitEncoded (v.setWidth 64) ++ tail →
          r.readLengthWithoutOffset = some ((write7BitEncoded v).length, v.toNat)) ∧
      ∀ (w : BinaryStreamWriter) (str : Bytes), ∃ w', w.writeCString str (v.setWidth 64) = some w' ∧
        ∀ (beyond : Beyond) (more : Bytes),
          (⟨w'.data ++ more, beyond, w.data.length⟩ : BinaryStreamReader).readLengthWithoutOffset =
            some ((write7BitEncoded v).length, v.toNat) := by
  refine ⟨codecExact_of_groups (by decide) (by decide) (by decide) v,
    codecExact_of_groups (by decide) (by decide) (by decide) u, write7BitEncoded_setWidth v,
    fun r tail h => readLengthWithoutOffset_write h, ?_⟩
  intro w str
  refine ⟨_, writeCString_header w str v, ?_⟩
  intro beyond more
  have hrest : (⟨w.data ++ write7BitEncoded v ++ str.take v.toNat ++ more, beyond,
      w.data.length⟩ : BinaryStreamReader).rest =
        write7BitEncoded (v.setWidth 64) ++ (str.take v.toNat ++ more) := by
    rw [BinaryStreamReader.rest, write7BitEncoded_setWidth]
    simp only [List.append_assoc, List.drop_left]
  exact readLengthWithoutOffset_write hrest

end ChatRoom.Net
