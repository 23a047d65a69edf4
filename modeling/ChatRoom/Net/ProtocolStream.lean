import ChatRoom.Core.Atoll
import ChatRoom.Core.Slice

/-!
# BinaryStreamReader and BinaryStreamWriter

The packing and unpacking classes of `net/ProtocolStream.cpp`. The reader is a
byte string and a cursor; `Beyond` stands for the memory it may look at outside
that string, about which nothing is known. The writer's constructor appends an
uninitialised array, so its six bytes are an argument. `size_t` is 64 bits wide.
-/

namespace ChatRoom.Net

open ChatRoom.Core

/-- Bytes of the inner package length, `BINARY_PACKLEN_LEN_2`. -/
def binaryPacklenLen2 : Nat := 4

/-- Bytes of the inner checksum, `CHECKSUM_LEN`; nothing writes or reads them. -/
def checksumLen : Nat := 2

/-- What `std::string` can hold at most; asking for more throws `std::length_error`. -/
def stringMaxSize : Nat := 2 ^ 62 - 1

/-- The loop of `write7BitEncoded`, for at most `fuel` bytes. -/
def write7BitLoop {w : Nat} : Nat → BitVec w → Bytes
  | 0, _ => []
  | fuel + 1, value =>
    let c := UInt8.ofNat (value &&& 0x7F#w).toNat
    let value := value >>> 7
    if value ≠ 0#w then (c ||| 0x80) :: write7BitLoop fuel value else [c]

/-- `write7BitEncoded`, for the 32-bit and the 64-bit overload: each turn of its
loop consumes seven bits, so there are never more turns than bits. -/
def write7BitEncoded {w : Nat} (value : BitVec w) : Bytes := write7BitLoop w value

/-- The loop of `read7BitEncoded` from a bit position on; `none` when it leaves the array. -/
def read7BitLoop {w : Nat} : Bytes → Nat → BitVec w → Option (BitVec w)
  | [], _, _ => none
  | c :: rest, bitCount, value =>
    let value := value + (BitVec.ofNat w (c &&& 0x7F).toNat <<< bitCount)
    if c &&& 0x80 = 0 then some value else read7BitLoop rest (bitCount + 7) value

/-- `read7BitEncoded`, for the 32-bit and the 64-bit overload. -/
def read7BitEncoded {w : Nat} (buf : Bytes) : Option (BitVec w) := read7BitLoop buf 0 0#w

/-- Memory outside the packet: the bytes that follow it, and the value that
`read7BitEncoded` makes up when it runs off its five-byte array. -/
structure Beyond where
  past : Nat → UInt8
  overrun : BitVec 32

/-- The packet and the offset of `cur` in it. -/
structure BinaryStreamReader where
  data : Bytes
  beyond : Beyond
  cur : Nat

namespace BinaryStreamReader

/-- The constructor skips the inner header. -/
def new (data : Bytes) (beyond : Beyond) : BinaryStreamReader :=
  ⟨data, beyond, binaryPacklenLen2 + checksumLen⟩

/-- The byte at an offset from `ptr`. -/
def byteAt (r : BinaryStreamReader) (i : Nat) : UInt8 :=
  r.data.getD i (r.beyond.past (i - r.data.length))

/-- Up to `fuel` bytes from an offset on, ending with the first whose top bit is clear. -/
def lengthBytes (r : BinaryStreamReader) : Nat → Nat → Bytes
  | 0, _ => []
  | fuel + 1, i =>
    let c := r.byteAt i
    if c &&& 0x80 = 0 then [c] else c :: lengthBytes r fuel (i + 1)

/-- The number of length bytes and the length they spell; the cursor stays. -/
def readLengthWithoutOffset (r : BinaryStreamReader) : Option (Nat × Nat) :=
  let buf := r.lengthBytes 5 r.cur
  if r.data.length < r.cur + buf.length then none
  else some (buf.length, ((read7BitEncoded buf).getD r.beyond.overrun).toNat)

/-- `ReadInt32`: the reader afterwards and the value, if there was one. -/
def readInt32 (r : BinaryStreamReader) : BinaryStreamReader × Option (BitVec 32) :=
  if r.data.length < r.cur + 4 then (r, none)
  else ({ r with cur := r.cur + 4 },
    some (BitVec.ofNat 32 (beNat (slice r.data r.cur (r.cur + 4)))))

/-- `ReadString`: a field that does not fit still moves the cursor over its length bytes. -/
def readString (r : BinaryStreamReader) (maxlen : Nat) : BinaryStreamReader × Option Bytes :=
  match r.readLengthWithoutOffset with
  | none => (r, none)
  | some (headlen, fieldlen) =>
    if maxlen ≠ 0 ∧ maxlen < fieldlen then (r, none)
    else
      let start := r.cur + headlen
      if r.data.length < start + fieldlen then ({ r with cur := start }, none)
      else ({ r with cur := start + fieldlen }, some (slice r.data start (start + fieldlen)))

/-- `ReadCString` into an array of `strlen` bytes: the array afterwards and `outlen`. -/
def readCString (r : BinaryStreamReader) (str : Bytes) (strlen : Nat) :
    BinaryStreamReader × Option (Bytes × Nat) :=
  match r.readLengthWithoutOffset with
  | none => (r, none)
  | some (headlen, fieldlen) =>
    if strlen < fieldlen then (r, none)
    else
      let start := r.cur + headlen
      if r.data.length < start + fieldlen then ({ r with cur := start }, none)
      else
        ({ r with cur := start + fieldlen },
          some (overwrite str 0 (slice r.data start (start + fieldlen)), fieldlen))

/-- `ReadCCString`: nothing is copied, `*str` is an offset in the packet; with `outlen`. -/
def readCCString (r : BinaryStreamReader) (maxlen : Nat) :
    BinaryStreamReader × Option (Nat × Nat) :=
  match r.readLengthWithoutOffset with
  | none => (r, none)
  | some (headlen, fieldlen) =>
    if maxlen ≠ 0 ∧ maxlen < fieldlen then (r, none)
    else
      let start := r.cur + headlen
      if r.data.length < start + fieldlen then ({ r with cur := start }, none)
      else ({ r with cur := start + fieldlen }, some (start, fieldlen))

/-- `ReadLength`. -/
def readLength (r : BinaryStreamReader) : BinaryStreamReader × Option Nat :=
  match r.readLengthWithoutOffset with
  | none => (r, none)
  | some (headlen, outlen) => ({ r with cur := r.cur + headlen }, some outlen)

/-- `ReadInt64`: its array is not initialised, so `int64str` is what was there, and
nothing terminates the digits. `none` as a whole is `atoll` walking out of the array. -/
def readInt64 (r : BinaryStreamReader) (int64str : Fin 128 → UInt8) :
    Option (BinaryStreamReader × Option (BitVec 64)) :=
  match r.readCString (List.ofFn int64str) 128 with
  | (r, none) => some (r, none)
  | (r, some (int64str, _)) => (atoll int64str).map fun i => (r, some i)

/-- `ReadShort`. -/
def readShort (r : BinaryStreamReader) : BinaryStreamReader × Option (BitVec 16) :=
  if r.data.length < r.cur + 2 then (r, none)
  else ({ r with cur := r.cur + 2 },
    some (BitVec.ofNat 16 (beNat (slice r.data r.cur (r.cur + 2)))))

/-- `ReadChar`. -/
def readChar (r : BinaryStreamReader) : BinaryStreamReader × Option UInt8 :=
  if r.data.length < r.cur + 1 then (r, none)
  else ({ r with cur := r.cur + 1 }, some (r.byteAt r.cur))

/-- `IsEnd`; `none` is its assertion. -/
def isEnd (r : BinaryStreamReader) : Option Bool :=
  if r.data.length < r.cur then none else some (r.cur = r.data.length)

end BinaryStreamReader

/-- The string under construction. -/
structure BinaryStreamWriter where
  data : Bytes

namespace BinaryStreamWriter

/-- The constructor appends an array it has not initialised: `stack` is what was there. -/
def new (stack : Fin 6 → UInt8) : BinaryStreamWriter := ⟨List.ofFn stack⟩

/-- `WriteInt32` with a value. -/
def writeInt32 (w : BinaryStreamWriter) (i : BitVec 32) : BinaryStreamWriter :=
  ⟨w.data ++ beBytes 4 i.toNat⟩

/-- `WriteCString`: the length goes through the 64-bit `write7BitEncoded`, the
overload that fits `size_t`. `none` is the `std::length_error` of `append`. -/
def writeCString (w : BinaryStreamWriter) (str : Bytes) (len : BitVec 64) :
    Option BinaryStreamWriter :=
  if stringMaxSize < len.toNat then none
  else some ⟨w.data ++ write7BitEncoded len ++ str.take len.toNat⟩

/-- `WriteString`. -/
def writeString (w : BinaryStreamWriter) (str : Bytes) : Option BinaryStreamWriter :=
  w.writeCString str (BitVec.ofNat 64 str.length)

/-- `WriteInt64`: the text of the value, without a terminator. -/
def writeInt64 (w : BinaryStreamWriter) (value : BitVec 64) (isNULL : Bool) :
    Option BinaryStreamWriter :=
  if isNULL then w.writeCString [] 0
  else
    let int64str := Decimal.encode value.toInt
    w.writeCString int64str (BitVec.ofNat 64 int64str.length)

/-- `WriteShort`. -/
def writeShort (w : BinaryStreamWriter) (i : BitVec 16) (isNULL : Bool) : BinaryStreamWriter :=
  ⟨w.data ++ beBytes 2 (if isNULL then 0 else i.toNat)⟩

/-- `WriteChar`. -/
def writeChar (w : BinaryStreamWriter) (c : UInt8) (isNULL : Bool) : BinaryStreamWriter :=
  ⟨w.data ++ [if isNULL then 0 else c]⟩

/-- `Flush`: the total length in network order over the first four bytes. -/
def flush (w : BinaryStreamWriter) : BinaryStreamWriter :=
  ⟨overwrite w.data 0 (beBytes 4 w.data.length)⟩

end BinaryStreamWriter

end ChatRoom.Net
