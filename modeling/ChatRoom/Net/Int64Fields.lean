import ChatRoom.Core.Atoll
import ChatRoom.Net.TypedStream

/-!
# 64-bit integers as decimal text

`ReadInt64` copies the digits of a field into an array that it has not initialised
and puts no terminator behind them, so `atoll` goes on reading what the array held
before. The value comes back exactly when those bytes do not change the number.
-/

namespace ChatRoom.Net

open ChatRoom.Core

/-- What stood in the array behind the text of `v` ends the number: some byte is no digit, and
the digits before it, if any, make no difference to `v`. -/
def EndsNumber (v : BitVec 64) (behind : Bytes) : Prop :=
  let more := behind.takeWhile Decimal.isDigit
  more.length < behind.length ∧
    (more = [] ∨ v = BitVec.intMax 64 ∨ v = BitVec.intMin 64 ∨ v = 0 ∧ ∀ c ∈ more, c = 48)

/-- A 64-bit integer takes at most twenty bytes. -/
theorem length_encode_toInt_le (v : BitVec 64) : (Decimal.encode v.toInt).length ≤ 20 := by
  have hlow := BitVec.le_toInt v
  have hhigh := BitVec.toInt_lt (x := v)
  cases hv : v.toInt with
  | ofNat n =>
    have hlen := Decimal.length_digits_le (n := n) (k := 19) (by decide) (by
      rw [hv, Int.ofNat_eq_natCast] at hhigh
      omega)
    rw [Decimal.encode]
    omega
  | negSucc n =>
    have hlen := Decimal.length_digits_le (n := n + 1) (k := 19) (by decide) (by
      rw [hv] at hlow
      omega)
    rw [Decimal.encode, List.length_cons]
    omega

private theorem atoll_encode_eq_iff {v : BitVec 64} {behind : Bytes} :
    atoll (Decimal.encode v.toInt ++ behind) = some v ↔ EndsNumber v behind := by
  have hle := (List.takeWhile_sublist (l := behind) Decimal.isDigit).length_le
  have hdigits : ∀ c ∈ behind.takeWhile Decimal.isDigit, Decimal.isDigit c = true :=
    List.all_eq_true.mp List.all_takeWhile
  rw [atoll_encode, EndsNumber]
  by_cases hend : behind.length = (behind.takeWhile Decimal.isDigit).length
  · rw [if_pos hend]
    constructor
    · intro hnone
      cases hnone
    · rintro ⟨hlt, -⟩
      omega
  · rw [if_neg hend, Option.some.injEq, clamp64_extended_iff hdigits]
    constructor
    · intro hv
      exact ⟨by omega, hv⟩
    · exact And.right

namespace BinaryStreamWriter

private theorem writeInt64_eq (w : BinaryStreamWriter) (v : BitVec 64) :
    w.writeInt64 v false = some ⟨w.data ++ (Varint.encode (Decimal.encode v.toInt).length ++
      Decimal.encode v.toInt)⟩ := by
  have hlen := length_encode_toInt_le v
  exact writeCString_eq (by omega)

end BinaryStreamWriter

namespace BinaryStreamReader

/-- A field that fits the caller's array is copied to its front. -/
theorem readCString_encode {r : BinaryStreamReader} {str field tail : Bytes} {strlen : Nat}
    (h : r.rest = Varint.encode field.length ++ (field ++ tail)) (hfield : field.length ≤ strlen)
    (hlen : field.length < 2 ^ 32) :
    r.readCString str strlen =
      ({ r with cur := r.cur + (Varint.encode field.length).length + field.length },
        some (overwrite str 0 field, field.length)) := by
  have hrest := congrArg List.length h
  rw [rest, List.length_drop, List.length_append, List.length_append] at hrest
  have hterm := Varint.encode_terminated field.length
  have hbound := bound_of_rest h (by rintro hnil; rw [hnil] at hterm; cases hterm)
  have hslice := slice_of_rest (rest_skip h)
  simp only at hslice
  rw [readCString, readLengthWithoutOffset_encode h hlen]
  simp only [if_neg (Nat.not_lt.mpr hfield)]
  rw [if_neg (by omega), hslice]

/-- The text of the value stands at the front of the array, and what the array held before
stands behind it. -/
theorem readInt64_encode {r : BinaryStreamReader} {v : BitVec 64} {tail : Bytes}
    (int64str : Fin 128 → UInt8)
    (h : r.rest = Varint.encode (Decimal.encode v.toInt).length ++
      (Decimal.encode v.toInt ++ tail)) :
    r.readInt64 int64str =
      (atoll (Decimal.encode v.toInt ++
        (List.ofFn int64str).drop (Decimal.encode v.toInt).length)).map fun i =>
          ({ r with cur := r.cur + (Varint.encode (Decimal.encode v.toInt).length).length +
            (Decimal.encode v.toInt).length }, some i) := by
  have hlen := length_encode_toInt_le v
  have harray : overwrite (List.ofFn int64str) 0 (Decimal.encode v.toInt) =
      Decimal.encode v.toInt ++ (List.ofFn int64str).drop (Decimal.encode v.toInt).length := by
    rw [overwrite, List.take_zero, List.nil_append, Nat.zero_add, List.take_of_length_le]
    rw [List.length_append, List.length_drop, List.length_ofFn]
    omega
  rw [readInt64, readCString_encode h (by omega) (by omega)]
  simp only [harray]

end BinaryStreamReader

/-- Reading a written field gives the value and moves behind the field exactly when the bytes
that stood in the array behind its text end the number. -/
theorem readInt64_writeInt64_iff {w w' : BinaryStreamWriter} {v : BitVec 64} {field tail : Bytes}
    {r : BinaryStreamReader} (int64str : Fin 128 → UInt8) (hw : w.writeInt64 v false = some w')
    (hfield : w'.data = w.data ++ field) (hr : r.rest = field ++ tail) :
    r.readInt64 int64str = some ({ r with cur := r.cur + field.length }, some v) ↔
      EndsNumber v ((List.ofFn int64str).drop (Decimal.encode v.toInt).length) := by
  rw [BinaryStreamWriter.writeInt64_eq, Option.some.injEq] at hw
  subst hw
  have himage := List.append_cancel_left hfield
  subst himage
  rw [List.append_assoc] at hr
  rw [BinaryStreamReader.readInt64_encode int64str hr, ← atoll_encode_eq_iff]
  simp only [Option.map_eq_some_iff, Prod.mk.injEq, Option.some.injEq, List.length_append,
    Nat.add_assoc, true_and, exists_eq_right]

private theorem encode_seven : Decimal.encode (7 : BitVec 64).toInt = [55] :=
  Decimal.encode_digit (by decide)

private theorem writeInt64_seven :
    (⟨[]⟩ : BinaryStreamWriter).writeInt64 7 false = some ⟨[1, 55]⟩ := by
  rw [BinaryStreamWriter.writeInt64_eq, encode_seven, List.length_singleton,
    Varint.encode_of_lt (by decide)]
  rfl

/-- With zeros in the array, the field of 7 is read back. -/
theorem readInt64_writeInt64_seven :
    (⟨[1, 55], ⟨fun _ => 0, 0⟩, 0⟩ : BinaryStreamReader).readInt64 (fun _ => 0) =
      some (⟨[1, 55], ⟨fun _ => 0, 0⟩, 2⟩, some 7) := by
  have hrest : (⟨[1, 55], ⟨fun _ => 0, 0⟩, 0⟩ : BinaryStreamReader).rest = [1, 55] ++ [] := rfl
  have hfield : ([1, 55] : Bytes) = [] ++ [1, 55] := rfl
  have hiff := readInt64_writeInt64_iff (fun _ => 0) writeInt64_seven hfield hrest
  apply hiff.mpr
  rw [encode_seven, List.length_singleton, List.ofFn_succ, List.drop_one, List.tail_cons,
    List.ofFn_succ, EndsNumber, List.takeWhile_cons_of_neg (by decide), List.length_nil,
    List.length_cons]
  constructor
  · omega
  · exact Or.inl rfl

/-- With a five behind the digit, the field of 7 is read as 75. -/
theorem readInt64_reads_on :
    (⟨[]⟩ : BinaryStreamWriter).writeInt64 7 false = some ⟨[1, 55]⟩ ∧
      (⟨[1, 55], ⟨fun _ => 0, 0⟩, 0⟩ : BinaryStreamReader).readInt64
          (fun i => if i.val = 1 then 53 else 0) =
        some (⟨[1, 55], ⟨fun _ => 0, 0⟩, 2⟩, some 75) := by
  refine ⟨writeInt64_seven, ?_⟩
  have hrest : (⟨[1, 55], ⟨fun _ => 0, 0⟩, 0⟩ : BinaryStreamReader).rest =
      Varint.encode (Decimal.encode (7 : BitVec 64).toInt).length ++
        (Decimal.encode (7 : BitVec 64).toInt ++ []) := by
    rw [encode_seven, List.length_singleton, Varint.encode_of_lt (by decide)]
    rfl
  rw [BinaryStreamReader.readInt64_encode _ hrest, atoll_encode, encode_seven, List.length_singleton, List.ofFn_succ, List.drop_one,
    List.tail_cons, List.ofFn_succ, List.ofFn_succ, Varint.encode_of_lt (by decide)]
  simp only [Fin.val_succ, Fin.val_zero, Nat.zero_add, if_true, Nat.reduceAdd, Nat.reduceEqDiff,
    if_false]
  rw [List.takeWhile_cons_of_pos (by decide), List.takeWhile_cons_of_neg (by decide)]
  rw [if_neg (by simp only [List.length_cons, List.length_nil]; omega)]
  rfl

end ChatRoom.Net
