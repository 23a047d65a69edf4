import ChatRoom.Core.Bytes
import ChatRoom.Core.Slice

/-!
# ByteBuffer

The growable buffer of `net/ByteBuffer.h`: a vector and two indices into it.
Sizes are natural numbers, so every statement is about buffers whose sizes do
not wrap around `size_t`. `std::copy` into the vector is `overwrite`, which
keeps the vector's length. An integer of `n` bytes is a bit vector; it is kept in
network byte order by every operation that stores or reads it.
-/

namespace ChatRoom.Net

open ChatRoom.Core

/-- The vector, the start of the readable bytes and the start of the writable ones. -/
structure ByteBuffer where
  buffer : Bytes
  readerIndex : Nat
  writerIndex : Nat
  deriving DecidableEq, Repr

namespace ByteBuffer

/-- Space kept free in front of the readable bytes. -/
def kCheapPrepend : Nat := 8

/-- Writable space of a buffer built without a size. -/
def kInitialSize : Nat := 1024

/-- A fresh buffer of the given writable size. -/
def ofSize (initialSize : Nat) : ByteBuffer where
  buffer := List.replicate (kCheapPrepend + initialSize) 0
  readerIndex := kCheapPrepend
  writerIndex := kCheapPrepend

/-- `readableBytes`. -/
def readableBytes (b : ByteBuffer) : Nat := b.writerIndex - b.readerIndex

/-- `writableBytes`. -/
def writableBytes (b : ByteBuffer) : Nat := b.buffer.length - b.writerIndex

/-- `prependableBytes`. -/
def prependableBytes (b : ByteBuffer) : Nat := b.readerIndex

/-- The bytes between the two indices: what a reader sees from `peek()` on. -/
def content (b : ByteBuffer) : Bytes := slice b.buffer b.readerIndex b.writerIndex

/-- The first `n` bytes from `peek()` on, as `memcpy` and `std::string(peek(), n)` read them. -/
def peek (b : ByteBuffer) (n : Nat) : Bytes := slice b.buffer b.readerIndex (b.readerIndex + n)

/-- `retrieveAll`: both indices go back behind the reserved front. -/
def retrieveAll (b : ByteBuffer) : ByteBuffer :=
  { b with readerIndex := kCheapPrepend, writerIndex := kCheapPrepend }

/-- `retrieve`; false when fewer bytes are readable. -/
def retrieve (b : ByteBuffer) (len : Nat) : ByteBuffer × Bool :=
  if b.readableBytes < len then (b, false)
  else if len < b.readableBytes then ({ b with readerIndex := b.readerIndex + len }, true)
  else (b.retrieveAll, true)

/-- `retrieveAsString`; empty when fewer bytes are readable. -/
def retrieveAsString (b : ByteBuffer) (len : Nat) : ByteBuffer × Bytes :=
  if b.readableBytes < len then (b, [])
  else ((b.retrieve len).1, b.peek len)

/-- `retrieveAllAsString`. -/
def retrieveAllAsString (b : ByteBuffer) : ByteBuffer × Bytes :=
  b.retrieveAsString b.readableBytes

/-- `toStringPiece`. -/
def toStringPiece (b : ByteBuffer) : Bytes := b.peek b.readableBytes

/-- Make room for `len` bytes: grow the vector, or slide the readable bytes to the front. -/
def makeSpace (b : ByteBuffer) (len : Nat) : ByteBuffer :=
  if b.writableBytes + b.prependableBytes < len + kCheapPrepend then
    { b with buffer := resize b.buffer (b.writerIndex + len) 0 }
  else if b.readerIndex ≤ kCheapPrepend then b
  else
    { buffer := overwrite b.buffer kCheapPrepend b.content
      readerIndex := kCheapPrepend
      writerIndex := kCheapPrepend + b.readableBytes }

/-- `ensureWritableBytes`. -/
def ensureWritableBytes (b : ByteBuffer) (len : Nat) : ByteBuffer × Bool :=
  if b.writableBytes < len then (b.makeSpace len, true) else (b, true)

/-- `hasWritten`; false when there is less room. -/
def hasWritten (b : ByteBuffer) (len : Nat) : ByteBuffer × Bool :=
  if b.writableBytes < len then (b, false)
  else ({ b with writerIndex := b.writerIndex + len }, true)

/-- `append`: the bytes are copied behind the readable ones, after room has been made. -/
def append (b : ByteBuffer) (data : Bytes) : ByteBuffer :=
  let room := (b.ensureWritableBytes data.length).1
  let filled := { room with buffer := overwrite room.buffer room.writerIndex data }
  (filled.hasWritten data.length).1

/-- `unwrite`; false when fewer bytes are readable. -/
def unwrite (b : ByteBuffer) (len : Nat) : ByteBuffer × Bool :=
  if b.readableBytes < len then (b, false)
  else ({ b with writerIndex := b.writerIndex - len }, true)

/-- `prepend`; false when there is less room in front. -/
def prepend (b : ByteBuffer) (data : Bytes) : ByteBuffer × Bool :=
  if b.prependableBytes < data.length then (b, false)
  else
    ({ b with
        buffer := overwrite b.buffer (b.readerIndex - data.length) data
        readerIndex := b.readerIndex - data.length }, true)

/-- `appendInt8`, `appendInt16`, `appendInt32`, `appendInt64`, by their width in bytes:
converting to network order and copying the memory image lays the value down big-endian. -/
def appendInt (n : Nat) (b : ByteBuffer) (x : BitVec (8 * n)) : ByteBuffer :=
  b.append (beBytes n x.toNat)

/-- `prependInt8` to `prependInt64`; the outcome of `prepend` is discarded by the source. -/
def prependInt (n : Nat) (b : ByteBuffer) (x : BitVec (8 * n)) : ByteBuffer :=
  (b.prepend (beBytes n x.toNat)).1

/-- `peekInt8` to `peekInt64`: minus one when fewer than `n` bytes are readable. -/
def peekInt (n : Nat) (b : ByteBuffer) : BitVec (8 * n) :=
  if b.readableBytes < n then -1 else BitVec.ofNat (8 * n) (beNat (b.peek n))

/-- `readInt8` to `readInt64`: a peek followed by `retrieve`. -/
def readInt (n : Nat) (b : ByteBuffer) : ByteBuffer × BitVec (8 * n) :=
  ((b.retrieve n).1, b.peekInt n)

/-- `appendInt8`. -/
def appendInt8 (b : ByteBuffer) (x : BitVec 8) : ByteBuffer := b.appendInt 1 x
/-- `appendInt16`. -/
def appendInt16 (b : ByteBuffer) (x : BitVec 16) : ByteBuffer := b.appendInt 2 x
/-- `appendInt32`. -/
def appendInt32 (b : ByteBuffer) (x : BitVec 32) : ByteBuffer := b.appendInt 4 x
/-- `appendInt64`. -/
def appendInt64 (b : ByteBuffer) (x : BitVec 64) : ByteBuffer := b.appendInt 8 x

/-- `prependInt8`. -/
def prependInt8 (b : ByteBuffer) (x : BitVec 8) : ByteBuffer := b.prependInt 1 x
/-- `prependInt16`. -/
def prependInt16 (b : ByteBuffer) (x : BitVec 16) : ByteBuffer := b.prependInt 2 x
/-- `prependInt32`. -/
def prependInt32 (b : ByteBuffer) (x : BitVec 32) : ByteBuffer := b.prependInt 4 x
/-- `prependInt64`. -/
def prependInt64 (b : ByteBuffer) (x : BitVec 64) : ByteBuffer := b.prependInt 8 x

/-- `peekInt8`. -/
def peekInt8 (b : ByteBuffer) : BitVec 8 := b.peekInt 1
/-- `peekInt16`. -/
def peekInt16 (b : ByteBuffer) : BitVec 16 := b.peekInt 2
/-- `peekInt32`. -/
def peekInt32 (b : ByteBuffer) : BitVec 32 := b.peekInt 4
/-- `peekInt64`. -/
def peekInt64 (b : ByteBuffer) : BitVec 64 := b.peekInt 8

/-- `readInt8`. -/
def readInt8 (b : ByteBuffer) : ByteBuffer × BitVec 8 := b.readInt 1
/-- `readInt16`. -/
def readInt16 (b : ByteBuffer) : ByteBuffer × BitVec 16 := b.readInt 2
/-- `readInt32`. -/
def readInt32 (b : ByteBuffer) : ByteBuffer × BitVec 32 := b.readInt 4
/-- `readInt64`. -/
def readInt64 (b : ByteBuffer) : ByteBuffer × BitVec 64 := b.readInt 8

/-- Replace the vector by a new one with `reserve` bytes to spare. -/
def shrink (b : ByteBuffer) (reserve : Nat) : ByteBuffer :=
  let other := ((ofSize kInitialSize).ensureWritableBytes (b.readableBytes + reserve)).1
  other.append b.toStringPiece

/-- The size of `readFd`'s array on the stack. -/
def extraSize : Nat := 65536

/-- What `readv` can deliver: the writable space, and the array when that space is
smaller than the array. The kernel moves at most `0x7ffff000` bytes a call, so the
result of the call is never changed by the cast to `int32_t`. -/
def readvRoom (b : ByteBuffer) : Nat :=
  min 0x7ffff000
    (if b.writableBytes < extraSize then b.writableBytes + extraSize else b.writableBytes)

/-- `readFd` when `n` bytes, the first of those available, were delivered: `readv` has filled the
writable space and then the array. -/
def readFd (b : ByteBuffer) (available : Bytes) : ByteBuffer × Nat :=
  let delivered := available.take b.readvRoom
  let filled := { b with buffer := overwrite b.buffer b.writerIndex (delivered.take b.writableBytes) }
  if delivered.length ≤ b.writableBytes then
    ({ filled with writerIndex := b.writerIndex + delivered.length }, delivered.length)
  else
    (append { filled with writerIndex := filled.buffer.length } (delivered.drop b.writableBytes),
      delivered.length)

end ByteBuffer

end ChatRoom.Net
