import ChatRoom.Net.ByteBufferSpec

/-!
# Reading from a descriptor appends

`readFd` hands `readv` the writable end of the vector and, when that is short, an
array on the stack. `Readv` is what the call made of them: the number of bytes and
the bytes themselves, laid over the segments in order. Whatever is delivered stands
behind the readable bytes afterwards.
-/

namespace ChatRoom.Net

open ChatRoom.Core

/-- A result of `readv` over segments of `offered` bytes: what it returned, the bytes it
delivered, and `errno` afterwards. -/
structure Readv (offered : Nat) where
  n : Int
  data : Bytes
  errno : Int
  n_le : n ≤ offered
  length_data : data.length = n.toNat

namespace ByteBuffer

/-- The length of the segments handed to `readv`: `iovcnt` is 2 or 1. -/
def offered (b : ByteBuffer) : Nat :=
  if b.writableBytes < extraSize then b.writableBytes + extraSize else b.writableBytes

/-- `readFd`: the buffer, the result and what is stored in `savedErrno`, if anything.
`extrabuf` is what the array on the stack held before. -/
def readFdWith (b : ByteBuffer) (extrabuf : Fin extraSize → UInt8) (r : Readv b.offered) :
    ByteBuffer × BitVec 32 × Option Int :=
  let writable := b.writableBytes
  let buffer := overwrite b.buffer b.writerIndex (r.data.take writable)
  let extrabuf := overwrite (List.ofFn extrabuf) 0 (r.data.drop writable)
  let n := BitVec.ofInt 32 r.n
  if r.n ≤ 0 then ({ b with buffer := buffer }, n, some r.errno)
  else if r.n.toNat ≤ writable then
    ({ b with buffer := buffer, writerIndex := b.writerIndex + r.n.toNat }, n, none)
  else
    (append { b with buffer := buffer, writerIndex := buffer.length }
      (extrabuf.take (r.n.toNat - writable)), n, none)

/-- The array on the stack holds all that did not fit the vector. -/
theorem take_extrabuf {b : ByteBuffer} (extrabuf : Fin extraSize → UInt8) (r : Readv b.offered)
    (h : b.writableBytes < r.n.toNat) :
    (overwrite (List.ofFn extrabuf) 0 (r.data.drop b.writableBytes)).take
      (r.n.toNat - b.writableBytes) = r.data.drop b.writableBytes := by
  have hle := r.n_le
  have hdata := r.length_data
  have hoffered : b.offered ≤ b.writableBytes + extraSize := by
    rw [offered]
    split <;> omega
  have hdrop : (r.data.drop b.writableBytes).length = r.n.toNat - b.writableBytes := by
    rw [List.length_drop, hdata]
  have hfits : (r.data.drop b.writableBytes).length ≤ (List.ofFn extrabuf).length := by
    rw [hdrop, List.length_ofFn]
    omega
  rw [← hdrop, overwrite, List.take_zero, List.nil_append, List.take_take, Nat.min_eq_left hfits,
    List.take_left]

/-- The model for delivered bytes is this one at a result that `readv` can have. -/
theorem readFd_eq_readFdWith (b : ByteBuffer) (available : Bytes) (extrabuf : Fin extraSize → UInt8)
    (errno : Int) (hle : ((available.take b.readvRoom).length : Int) ≤ b.offered)
    (hpos : 0 < (available.take b.readvRoom).length) :
    (b.readFd available).1 = (b.readFdWith extrabuf
      ⟨(available.take b.readvRoom).length, available.take b.readvRoom, errno, hle,
        (Int.toNat_natCast _).symm⟩).1 := by
  simp only [readFd, readFdWith, Int.toNat_natCast]
  rw [if_neg (show ¬ ((available.take b.readvRoom).length : Int) ≤ 0 by omega)]
  by_cases hfits : (available.take b.readvRoom).length ≤ b.writableBytes
  · rw [if_pos hfits, if_pos hfits]
  · have hextra := take_extrabuf extrabuf (b := b) ⟨(available.take b.readvRoom).length,
      available.take b.readvRoom, errno, hle, (Int.toNat_natCast _).symm⟩ (by
        simp only [Int.toNat_natCast]
        omega)
    simp only [Int.toNat_natCast] at hextra
    rw [if_neg hfits, if_neg hfits, hextra]

end ByteBuffer

/-- What `readv` delivered stands behind the readable bytes, wherever the indices were and
however it was split; a call that delivered nothing leaves the buffer as it was. -/
theorem readFd_append (b : Buffer) (extrabuf : Fin ByteBuffer.extraSize → UInt8)
    (r : Readv b.offered) :
    (0 < r.n → (b.readFdWith extrabuf r).1.Valid ∧
      (b.readFdWith extrabuf r).1.content = b.content ++ r.data) ∧
    (r.n ≤ 0 → (b.readFdWith extrabuf r).1 = b.toByteBuffer) := by
  have hdata := r.length_data
  constructor
  · intro hpos
    simp only [ByteBuffer.readFdWith, if_neg (Int.not_le.mpr hpos)]
    by_cases hfits : r.n.toNat ≤ b.writableBytes
    · simp only [if_pos hfits]
      rw [← hdata] at hfits ⊢
      rw [List.take_of_length_le hfits]
      exact b.valid.fill hfits
    · simp only [if_neg hfits, ByteBuffer.take_extrabuf extrabuf r (Nat.lt_of_not_le hfits)]
      exact b.valid.fillOver (by omega)
  · intro hneg
    have hnil : r.data = [] := List.eq_nil_of_length_eq_zero (by omega)
    have hkeep : overwrite b.buffer b.writerIndex [] = b.buffer := by
      rw [overwrite, List.append_nil, List.length_nil, Nat.add_zero, List.take_append_drop,
        List.take_length]
    simp only [ByteBuffer.readFdWith, if_pos hneg, hnil, List.take_nil, hkeep]

end ChatRoom.Net
