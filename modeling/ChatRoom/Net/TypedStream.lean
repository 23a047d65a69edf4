import ChatRoom.Net.StreamCodec

/-!
# A typed stream is read back as it was written

A run of writer calls appends the image of each value, and a reader that stands
before an image returns its value and stands behind it. By induction a reader
given the matching calls returns every value and ends at the end of the packet.
-/

namespace ChatRoom.Net

open ChatRoom.Core

/-- A call of the writer with its value, `isNULL` being false. -/
inductive WriteCall where
  | writeInt32 (i : BitVec 32)
  | writeShort (i : BitVec 16)
  | writeChar (c : UInt8)
  | writeString (str : Bytes)
  | writeCString (str : Bytes)

/-- A call of the reader, `ReadString` with `maxlen` 0. -/
inductive ReadCall where
  | readInt32
  | readShort
  | readChar
  | readString

/-- What a call of the reader can return. -/
inductive FieldValue where
  | int32 (i : BitVec 32)
  | short (i : BitVec 16)
  | char (c : UInt8)
  | string (str : Bytes)
  deriving DecidableEq

namespace BinaryStreamWriter

/-- One call of the writer. -/
def write (w : BinaryStreamWriter) : WriteCall → Option BinaryStreamWriter
  | .writeInt32 i => some (w.writeInt32 i)
  | .writeShort i => some (w.writeShort i false)
  | .writeChar c => some (w.writeChar c false)
  | .writeString str => w.writeString str
  | .writeCString str => w.writeCString str (BitVec.ofNat 64 str.length)

/-- A run of calls; `none` when one of them throws. -/
def writeAll (w : BinaryStreamWriter) : List WriteCall → Option BinaryStreamWriter
  | [] => some w
  | call :: calls => (w.write call).bind fun w => w.writeAll calls

end BinaryStreamWriter

namespace BinaryStreamReader

/-- One call of the reader; `none` when it reports a failure. -/
def read (r : BinaryStreamReader) : ReadCall → BinaryStreamReader × Option FieldValue
  | .readInt32 => r.readInt32.map id (Option.map .int32)
  | .readShort => r.readShort.map id (Option.map .short)
  | .readChar => r.readChar.map id (Option.map .char)
  | .readString => (r.readString 0).map id (Option.map .string)

/-- A run of calls, with what each of them returned. -/
def readAll (r : BinaryStreamReader) :
    List ReadCall → BinaryStreamReader × List (Option FieldValue)
  | [] => (r, [])
  | call :: calls =>
    let (r, value) := r.read call
    let (r, values) := r.readAll calls
    (r, value :: values)

end BinaryStreamReader

namespace WriteCall

/-- The call that reads the field back. -/
def readCall : WriteCall → ReadCall
  | .writeInt32 _ => .readInt32
  | .writeShort _ => .readShort
  | .writeChar _ => .readChar
  | .writeString _ => .readString
  | .writeCString _ => .readString

/-- The field that the call writes. -/
def value : WriteCall → FieldValue
  | .writeInt32 i => .int32 i
  | .writeShort i => .short i
  | .writeChar c => .char c
  | .writeString str => .string str
  | .writeCString str => .string str

/-- The bytes that the field takes in the stream. -/
def image : WriteCall → Bytes
  | .writeInt32 i => beBytes 4 i.toNat
  | .writeShort i => beBytes 2 i.toNat
  | .writeChar c => [c]
  | .writeString str => Varint.encode str.length ++ str
  | .writeCString str => Varint.encode str.length ++ str

end WriteCall

/-- The length of a packet: the inner header and the images of its fields. -/
def packetLength (calls : List WriteCall) : Nat :=
  binaryPacklenLen2 + checksumLen + (calls.flatMap WriteCall.image).length

/-! ## Writing -/

namespace BinaryStreamWriter

/-- A string is written behind its length. -/
theorem writeCString_eq {w : BinaryStreamWriter} {str : Bytes} (h : str.length < 2 ^ 32) :
    w.writeCString str (BitVec.ofNat 64 str.length) =
      some ⟨w.data ++ (Varint.encode str.length ++ str)⟩ := by
  have hlen : (BitVec.ofNat 64 str.length).toNat = str.length := by
    rw [BitVec.toNat_ofNat]
    omega
  have hfits : ¬ stringMaxSize < str.length := by
    have hmax : stringMaxSize = 4611686018427387903 := rfl
    omega
  rw [writeCString, hlen, if_neg hfits, write7BitEncoded_eq (by decide), hlen, List.take_length,
    List.append_assoc]

/-- One call appends the image of its value. -/
theorem write_eq {w : BinaryStreamWriter} {call : WriteCall} (h : call.image.length < 2 ^ 32) :
    w.write call = some ⟨w.data ++ call.image⟩ := by
  cases call with
  | writeInt32 i => rfl
  | writeShort i => rfl
  | writeChar c => rfl
  | writeString str =>
    simp only [WriteCall.image, List.length_append] at h
    exact writeCString_eq (Nat.lt_of_le_of_lt (Nat.le_add_left _ _) h)
  | writeCString str =>
    simp only [WriteCall.image, List.length_append] at h
    exact writeCString_eq (Nat.lt_of_le_of_lt (Nat.le_add_left _ _) h)

/-- A run of calls appends the images of its values. -/
theorem writeAll_eq {w : BinaryStreamWriter} {calls : List WriteCall}
    (h : (calls.flatMap WriteCall.image).length < 2 ^ 32) :
    w.writeAll calls = some ⟨w.data ++ calls.flatMap WriteCall.image⟩ := by
  induction calls generalizing w with
  | nil => rw [writeAll, List.flatMap_nil, List.append_nil]
  | cons call calls ih =>
    rw [List.flatMap_cons, List.length_append] at h
    rw [writeAll, write_eq (by omega), Option.bind_some, ih (by omega), List.flatMap_cons,
      List.append_assoc]

/-- `Flush` writes the length over the first four bytes: the two behind them stay what the
constructor found. -/
theorem flush_images (stack : Fin 6 → UInt8) (calls : List WriteCall) :
    (⟨List.ofFn stack ++ calls.flatMap WriteCall.image⟩ : BinaryStreamWriter).flush.data =
      beBytes 4 (packetLength calls) ++
        ([stack 4, stack 5] ++ calls.flatMap WriteCall.image) := by
  have hstack : List.ofFn stack = [stack 0, stack 1, stack 2, stack 3] ++ [stack 4, stack 5] := by
    simp only [List.ofFn_succ, List.ofFn_zero]
    rfl
  have hlen : (List.ofFn stack ++ calls.flatMap WriteCall.image).length = packetLength calls := by
    rw [List.length_append, List.length_ofFn]
    rfl
  have hdrop : (List.ofFn stack ++ calls.flatMap WriteCall.image).drop 4 =
      [stack 4, stack 5] ++ calls.flatMap WriteCall.image := by
    rw [hstack, List.append_assoc]
    exact List.drop_left' rfl
  simp only [flush, overwrite, hlen, length_beBytes, List.take_zero, List.nil_append,
    Nat.zero_add, hdrop]
  rw [List.take_of_length_le]
  rw [List.length_append, length_beBytes, List.length_append]
  exact Nat.le_of_eq (Nat.add_assoc 4 2 _).symm

end BinaryStreamWriter

/-! ## Reading -/

namespace BinaryStreamReader

private theorem readShort_beBytes {r : BinaryStreamReader} {x : BitVec 16} {tail : Bytes}
    (h : r.rest = beBytes 2 x.toNat ++ tail) :
    r.readShort = ({ r with cur := r.cur + 2 }, some x) := by
  have hlen := length_beBytes 2 x.toNat
  have hbound := bound_of_rest h (by intro hnil; rw [hnil] at hlen; cases hlen)
  have hslice := slice_of_rest h
  rw [hlen] at hbound hslice
  rw [readShort, if_neg (Nat.not_lt.mpr hbound), hslice,
    beNat_beBytes_of_lt (Nat.lt_of_lt_of_le x.isLt (by decide)), BitVec.ofNat_toNat,
    BitVec.setWidth_eq]

private theorem readChar_cons {r : BinaryStreamReader} {c : UInt8} {tail : Bytes}
    (h : r.rest = [c] ++ tail) : r.readChar = ({ r with cur := r.cur + 1 }, some c) := by
  have hbound := bound_of_rest h (List.cons_ne_nil c [])
  rw [List.length_singleton] at hbound
  have hget : r.data[r.cur]? = some c := by
    rw [← Nat.add_zero r.cur, ← List.getElem?_drop, ← rest, h, List.singleton_append,
      List.getElem?_cons_zero]
  rw [readChar, if_neg (Nat.not_lt.mpr hbound), byteAt, List.getD_eq_getElem?_getD, hget,
    Option.getD_some]

/-- Before the image of a value the matching call returns it and moves behind the image. -/
theorem read_image {r : BinaryStreamReader} {call : WriteCall} {tail : Bytes}
    (h : r.rest = call.image ++ tail) (hlen : call.image.length < 2 ^ 32) :
    r.read call.readCall =
      ({ r with cur := r.cur + call.image.length }, some call.value) := by
  cases call with
  | writeInt32 i =>
    simp only [WriteCall.readCall, read, (readInt32_beBytes h).1, WriteCall.image, length_beBytes]
    rfl
  | writeShort i =>
    simp only [WriteCall.readCall, read, readShort_beBytes h, WriteCall.image, length_beBytes]
    rfl
  | writeChar c =>
    simp only [WriteCall.readCall, read, readChar_cons h]
    rfl
  | writeString str =>
    simp only [WriteCall.image, List.length_append, List.append_assoc] at h hlen
    simp only [WriteCall.readCall, read, readString_encode h (by omega), WriteCall.image,
      List.length_append, Nat.add_assoc]
    rfl
  | writeCString str =>
    simp only [WriteCall.image, List.length_append, List.append_assoc] at h hlen
    simp only [WriteCall.readCall, read, readString_encode h (by omega), WriteCall.image,
      List.length_append, Nat.add_assoc]
    rfl

/-- A run of matching calls returns every value and moves behind the last image. -/
theorem readAll_images {r : BinaryStreamReader} {calls : List WriteCall} {tail : Bytes}
    (h : r.rest = calls.flatMap WriteCall.image ++ tail)
    (hlen : (calls.flatMap WriteCall.image).length < 2 ^ 32) :
    r.readAll (calls.map WriteCall.readCall) =
      ({ r with cur := r.cur + (calls.flatMap WriteCall.image).length },
        calls.map fun call => some call.value) := by
  induction calls generalizing r with
  | nil => rfl
  | cons call calls ih =>
    rw [List.flatMap_cons, List.append_assoc] at h
    rw [List.flatMap_cons, List.length_append] at hlen
    have hskip := rest_skip h
    rw [List.map_cons, readAll, read_image h (by omega)]
    simp only [ih hskip (by omega), List.flatMap_cons, List.length_append, List.map_cons,
      Nat.add_assoc]

/-- The first call after the constructor finds the image of the first value. -/
theorem rest_new (pre images : Bytes) (beyond : Beyond) (h : pre.length = 6) :
    (new (pre ++ images) beyond).rest = images := by
  rw [rest, new]
  exact List.drop_left' h

end BinaryStreamReader

/-! ## The round trip -/

/-- Whatever is written is read back value by value, up to the end of the packet, and the
packet starts with its length. -/
theorem readAll_writeAll (calls : List WriteCall) (stack : Fin 6 → UInt8) (beyond : Beyond)
    (h : packetLength calls < 2 ^ 32) :
    ∃ w, (BinaryStreamWriter.new stack).writeAll calls = some w ∧
      w.flush.data.length = packetLength calls ∧
      w.flush.data.take 4 = beBytes 4 (packetLength calls) ∧
      ∃ r, (BinaryStreamReader.new w.flush.data beyond).readAll (calls.map WriteCall.readCall) =
          (r, calls.map fun call => some call.value) ∧
        r.isEnd = some true := by
  have hpacket : packetLength calls = 6 + (calls.flatMap WriteCall.image).length := rfl
  refine ⟨_, BinaryStreamWriter.writeAll_eq (by omega), ?_⟩
  rw [BinaryStreamWriter.new, BinaryStreamWriter.flush_images]
  have hlen : (beBytes 4 (packetLength calls) ++
      ([stack 4, stack 5] ++ calls.flatMap WriteCall.image)).length = packetLength calls := by
    simp only [List.length_append, length_beBytes, List.length_cons, List.length_nil]
    omega
  refine ⟨hlen, List.take_left' (length_beBytes 4 _), ?_⟩
  have hrest : (BinaryStreamReader.new (beBytes 4 (packetLength calls) ++
      ([stack 4, stack 5] ++ calls.flatMap WriteCall.image)) beyond).rest =
        calls.flatMap WriteCall.image ++ [] := by
    rw [← List.append_assoc, List.append_nil]
    apply BinaryStreamReader.rest_new
    rw [List.length_append, length_beBytes]
    rfl
  refine ⟨_, BinaryStreamReader.readAll_images hrest (by omega), ?_⟩
  have hend : (BinaryStreamReader.new (beBytes 4 (packetLength calls) ++
      ([stack 4, stack 5] ++ calls.flatMap WriteCall.image)) beyond).cur +
        (calls.flatMap WriteCall.image).length = packetLength calls := rfl
  simp only [BinaryStreamReader.isEnd, hend]
  simp only [BinaryStreamReader.new, hlen, Nat.lt_irrefl, if_false, decide_true]

/-- A short, a byte string with a NUL in it and a character. -/
theorem readAll_writeAll_three :
    ∃ w, (BinaryStreamWriter.new fun _ => 7).writeAll
        [.writeShort 3, .writeString [0, 255], .writeChar 9] = some w ∧
      w.flush.data.length = 12 ∧ w.flush.data.take 4 = [0, 0, 0, 12] ∧
      ∃ r, (BinaryStreamReader.new w.flush.data ⟨fun _ => 1, 5⟩).readAll
          [.readShort, .readString, .readChar] =
          (r, [some (.short 3), some (.string [0, 255]), some (.char 9)]) ∧
        r.isEnd = some true := by
  have hlen : packetLength [.writeShort 3, .writeString [0, 255], .writeChar 9] = 12 := by
    simp [packetLength, WriteCall.image, Varint.encode_of_lt, binaryPacklenLen2, checksumLen]
  have h := readAll_writeAll [.writeShort 3, .writeString [0, 255], .writeChar 9] (fun _ => 7)
    ⟨fun _ => 1, 5⟩ (by rw [hlen]; decide)
  rw [hlen] at h
  exact h

end ChatRoom.Net
