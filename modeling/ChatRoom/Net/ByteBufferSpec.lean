import ChatRoom.Net.ByteBuffer

/-!
# What each ByteBuffer operation does to the readable bytes

`Valid` is the index invariant drawn in the header comment of the source. Every
operation keeps it, and its effect on the readable bytes is an equation between
lists, so that later proofs never look at the vector. The early return of
`makeSpace` is never taken when space is short: short space with enough slack
forces the reader index beyond the cheap prepend area.
-/

namespace ChatRoom.Net

open ChatRoom.Core

namespace ByteBuffer

/-- `0 <= readerIndex <= writerIndex <= size`, with the prepend area inside the vector. -/
structure Valid (b : ByteBuffer) : Prop where
  prepend_le : kCheapPrepend ≤ b.buffer.length
  reader_le : b.readerIndex ≤ b.writerIndex
  writer_le : b.writerIndex ≤ b.buffer.length

/-- A new buffer has its indices in order. -/
theorem ofSize_valid (n : Nat) : (ofSize n).Valid := by
  refine ⟨?_, Nat.le_refl _, ?_⟩ <;> simp only [ofSize, List.length_replicate] <;> omega

/-- A new buffer is empty. -/
@[simp] theorem content_ofSize (n : Nat) : (ofSize n).content = [] := slice_self _ _

/-- The content is what is readable. -/
theorem Valid.length_content {b : ByteBuffer} (h : b.Valid) :
    b.content.length = b.readableBytes := length_slice h.writer_le

/-- `peek` shows the front of the content. -/
theorem Valid.peek_eq {b : ByteBuffer} {n : Nat} (h : b.Valid) (hn : n ≤ b.readableBytes) :
    b.peek n = b.content.take n := by
  have hr := h.reader_le
  exact (take_slice (by unfold readableBytes at hn; omega)).symm

private theorem Valid.toStringPiece_eq {b : ByteBuffer} (h : b.Valid) :
    b.toStringPiece = b.content := by
  rw [toStringPiece, h.peek_eq (Nat.le_refl _), ← h.length_content, List.take_length]

/-- `retrieveAll` keeps the indices in order. -/
theorem Valid.retrieveAll {b : ByteBuffer} (h : b.Valid) : b.retrieveAll.Valid :=
  ⟨h.prepend_le, Nat.le_refl _, h.prepend_le⟩

/-- `retrieveAll` empties the buffer. -/
@[simp] theorem content_retrieveAll (b : ByteBuffer) : b.retrieveAll.content = [] := slice_self _ _

/-- `retrieve` refuses more than is readable. -/
theorem retrieve_of_lt {b : ByteBuffer} {len : Nat} (h : b.readableBytes < len) :
    b.retrieve len = (b, false) := by
  rw [retrieve, if_pos h]

/-- `retrieve` keeps the indices in order. -/
theorem Valid.retrieve {b : ByteBuffer} (h : b.Valid) (len : Nat) : (b.retrieve len).1.Valid := by
  unfold ByteBuffer.retrieve
  split
  · exact h
  · split
    · next hlt => exact ⟨h.prepend_le, by simp only [readableBytes] at hlt ⊢; omega, h.writer_le⟩
    · exact h.retrieveAll

/-- `retrieve` accepts what is readable. -/
theorem retrieve_flag {b : ByteBuffer} {len : Nat} (h : len ≤ b.readableBytes) :
    (b.retrieve len).2 = true := by
  rw [retrieve, if_neg (by omega)]
  split <;> rfl

/-- `retrieve` takes the front off the content. -/
theorem Valid.content_retrieve {b : ByteBuffer} {len : Nat} (h : b.Valid)
    (hlen : len ≤ b.readableBytes) : (b.retrieve len).1.content = b.content.drop len := by
  rw [ByteBuffer.retrieve, if_neg (by omega)]
  split
  · exact (drop_slice _ _ _ _).symm
  · rw [content_retrieveAll, List.drop_eq_nil_of_le (by rw [h.length_content]; omega)]

private theorem Valid.makeSpace {b : ByteBuffer} {len : Nat} (h : b.Valid)
    (hlen : b.writableBytes < len) :
    (b.makeSpace len).Valid ∧ (b.makeSpace len).content = b.content ∧
      len ≤ (b.makeSpace len).writableBytes := by
  have hr := h.reader_le
  have hw := h.writer_le
  have hp := h.prepend_le
  simp only [writableBytes] at hlen
  unfold ByteBuffer.makeSpace
  split
  · have hgrow : b.buffer.length ≤ b.writerIndex + len := by omega
    refine ⟨⟨?_, hr, ?_⟩, slice_resize 0 hgrow hw, ?_⟩
    · simp only [length_resize]; omega
    · simp only [length_resize]; omega
    · simp only [writableBytes, length_resize]; omega
  · next hslack =>
    simp only [writableBytes, prependableBytes] at hslack
    -- The early return of the source: short space and slack put the reader beyond the prepend area.
    rw [if_neg (by omega)]
    have hc := h.length_content
    have hroom : kCheapPrepend + b.content.length ≤ b.buffer.length := by
      rw [hc, readableBytes]; omega
    refine ⟨⟨?_, by simp only; omega, ?_⟩, ?_, ?_⟩
    · rw [length_overwrite _ hp]; exact hp
    · rw [length_overwrite _ hp, ← hc]; exact hroom
    · simp only [content] at hc hroom ⊢
      rw [← hc]
      exact slice_overwrite_self hroom
    · simp only [writableBytes, length_overwrite _ hp, readableBytes]; omega

/-- `ensureWritableBytes` makes the room and keeps the content. -/
theorem Valid.ensureWritableBytes {b : ByteBuffer} (h : b.Valid) (len : Nat) :
    (b.ensureWritableBytes len).1.Valid ∧ (b.ensureWritableBytes len).1.content = b.content ∧
      len ≤ (b.ensureWritableBytes len).1.writableBytes := by
  unfold ByteBuffer.ensureWritableBytes
  split
  · next hlt => exact h.makeSpace hlt
  · next hge => exact ⟨h, rfl, Nat.le_of_not_lt hge⟩

/-- Writing into space that is there adds the data behind the readable bytes. -/
theorem Valid.fill {b : ByteBuffer} {data : Bytes} (h : b.Valid)
    (hroom : data.length ≤ b.writableBytes) :
    let filled : ByteBuffer :=
      ⟨overwrite b.buffer b.writerIndex data, b.readerIndex, b.writerIndex + data.length⟩
    filled.Valid ∧ filled.content = b.content ++ data := by
  have hw := h.writer_le
  have hr := h.reader_le
  have hend : b.writerIndex + data.length ≤ b.buffer.length := by
    unfold writableBytes at hroom; omega
  intro filled
  have hsize : filled.buffer.length = b.buffer.length := length_overwrite data hw
  refine ⟨⟨by rw [hsize]; exact h.prepend_le, ?_, by rw [hsize]; exact hend⟩, ?_⟩
  · simp only [filled]; omega
  · change slice filled.buffer b.readerIndex (b.writerIndex + data.length) = _
    rw [← slice_append hr (Nat.le_add_right _ _) (by rw [hsize]; exact hend),
      slice_overwrite_self hend, slice_overwrite_of_disjoint hw hw (Or.inl (Nat.le_refl _))]
    rfl

private theorem hasWritten_of_le {b : ByteBuffer} {len : Nat} (h : len ≤ b.writableBytes) :
    b.hasWritten len = (⟨b.buffer, b.readerIndex, b.writerIndex + len⟩, true) := by
  rw [hasWritten, if_neg (Nat.not_lt.mpr h)]

/-- `append` puts the bytes behind the content. -/
theorem Valid.append {b : ByteBuffer} (h : b.Valid) (data : Bytes) :
    (b.append data).Valid ∧ (b.append data).content = b.content ++ data := by
  obtain ⟨hv, hc, hroom⟩ := h.ensureWritableBytes data.length
  have hfill := hv.fill hroom
  rw [hc] at hfill
  rw [ByteBuffer.append, hasWritten_of_le]
  · exact hfill
  · rw [writableBytes, length_overwrite data hv.writer_le]
    exact hroom

/-- An integer goes behind the content in network order. -/
theorem Valid.appendInt {b : ByteBuffer} {n : Nat} (h : b.Valid) (x : BitVec (8 * n)) :
    (b.appendInt n x).Valid ∧ (b.appendInt n x).content = b.content ++ beBytes n x.toNat :=
  h.append _

/-- `unwrite` refuses more than is readable. -/
theorem unwrite_of_lt {b : ByteBuffer} {len : Nat} (h : b.readableBytes < len) :
    b.unwrite len = (b, false) := by
  rw [unwrite, if_pos h]

/-- `unwrite` takes the end off the content. -/
theorem Valid.unwrite {b : ByteBuffer} {len : Nat} (h : b.Valid) (hlen : len ≤ b.readableBytes) :
    (b.unwrite len).1.Valid ∧ (b.unwrite len).2 = true ∧
      (b.unwrite len).1.content = b.content.take (b.content.length - len) := by
  have hr := h.reader_le
  have hw := h.writer_le
  have hback : b.readerIndex + len ≤ b.writerIndex := by unfold readableBytes at hlen; omega
  rw [ByteBuffer.unwrite, if_neg (by omega), h.length_content]
  refine ⟨⟨h.prepend_le, by simp only; omega, by simp only; omega⟩, rfl, ?_⟩
  simp only [content, readableBytes]
  rw [take_slice (by omega)]
  congr 1
  omega

/-- `prepend` refuses more than fits in front. -/
theorem prepend_of_lt {b : ByteBuffer} {data : Bytes} (h : b.prependableBytes < data.length) :
    b.prepend data = (b, false) := by
  rw [prepend, if_pos h]

/-- `prepend` puts the bytes before the content. -/
theorem Valid.prepend {b : ByteBuffer} {data : Bytes} (h : b.Valid)
    (hlen : data.length ≤ b.prependableBytes) :
    (b.prepend data).1.Valid ∧ (b.prepend data).2 = true ∧
      (b.prepend data).1.content = data ++ b.content := by
  have hr := h.reader_le
  have hw := h.writer_le
  rw [ByteBuffer.prepend, if_neg (by omega)]
  simp only [prependableBytes] at hlen
  have hstart : b.readerIndex - data.length ≤ b.buffer.length := by omega
  have hend : b.readerIndex - data.length + data.length = b.readerIndex := by omega
  have hsize := length_overwrite data hstart
  refine ⟨⟨by rw [hsize]; exact h.prepend_le, by simp only; omega, by rw [hsize]; exact hw⟩,
    rfl, ?_⟩
  have hroom : b.readerIndex - data.length + data.length ≤ b.buffer.length := by omega
  have hself := slice_overwrite_self hroom
  rw [hend] at hself
  simp only [content]
  rw [← slice_append (Nat.sub_le _ _) hr (by rw [hsize]; exact hw), hself,
    slice_overwrite_of_disjoint hstart hw (Or.inr (by omega))]

/-- `shrink` keeps the content. -/
theorem Valid.shrink {b : ByteBuffer} (h : b.Valid) (reserve : Nat) :
    (b.shrink reserve).Valid ∧ (b.shrink reserve).content = b.content := by
  obtain ⟨hv, hc, _⟩ := (ofSize_valid kInitialSize).ensureWritableBytes (b.readableBytes + reserve)
  obtain ⟨hv', hc'⟩ := hv.append b.toStringPiece
  refine ⟨hv', ?_⟩
  rw [ByteBuffer.shrink, hc', hc, content_ofSize, h.toStringPiece_eq, List.nil_append]

/-- More bytes than fit: the writable space is filled to its end and the rest is appended. -/
theorem Valid.fillOver {b : ByteBuffer} {delivered : Bytes} (h : b.Valid)
    (hover : b.writableBytes ≤ delivered.length) :
    let filled := overwrite b.buffer b.writerIndex (delivered.take b.writableBytes)
    let appended : ByteBuffer := ByteBuffer.append ⟨filled, b.readerIndex, filled.length⟩
      (delivered.drop b.writableBytes)
    appended.Valid ∧ appended.content = b.content ++ delivered := by
  have hw := h.writer_le
  intro filled appended
  have hlen : (delivered.take b.writableBytes).length = b.writableBytes := by
    rw [List.length_take]; omega
  obtain ⟨hv, hc⟩ := h.fill (Nat.le_of_eq hlen)
  have hfull : filled.length = b.writerIndex + (delivered.take b.writableBytes).length := by
    rw [length_overwrite _ hw, hlen, writableBytes]; omega
  obtain ⟨hv', hc'⟩ := hv.append (delivered.drop b.writableBytes)
  rw [hc, List.append_assoc, List.take_append_drop] at hc'
  simp only [appended, hfull]
  exact ⟨hv', hc'⟩

/-- Reading from the socket adds the delivered bytes behind the readable ones. -/
theorem Valid.readFd {b : ByteBuffer} (h : b.Valid) (available : Bytes) :
    (b.readFd available).1.Valid ∧
      (b.readFd available).1.content = b.content ++ available.take b.readvRoom := by
  rw [ByteBuffer.readFd]
  generalize available.take b.readvRoom = delivered
  by_cases hfits : delivered.length ≤ b.writableBytes
  · simp only [if_pos hfits, List.take_of_length_le hfits]
    exact h.fill hfits
  · simp only [if_neg hfits]
    exact h.fillOver (Nat.le_of_not_le hfits)

/-- With too few bytes `peekInt` yields -1. -/
theorem peekInt_of_lt {b : ByteBuffer} {n : Nat} (h : b.readableBytes < n) :
    b.peekInt n = -1 := by
  rw [peekInt, if_pos h]

/-- With enough bytes `peekInt` yields the number at the front. -/
theorem Valid.peekInt_eq {b : ByteBuffer} {n : Nat} (h : b.Valid)
    (hn : n ≤ b.readableBytes) :
    b.peekInt n = BitVec.ofNat (8 * n) (beNat (b.content.take n)) := by
  rw [peekInt, if_neg (by omega), h.peek_eq hn]

/-- The value of `n` bytes laid down big-endian reads back unchanged. -/
theorem ofNat_beNat_beBytes {n : Nat} (x : BitVec (8 * n)) :
    BitVec.ofNat (8 * n) (beNat (beBytes n x.toNat)) = x := by
  have hx : x.toNat < 256 ^ n := by
    rw [show (256 : Nat) = 2 ^ 8 from rfl, ← Nat.pow_mul]
    exact x.isLt
  rw [beNat_beBytes_of_lt hx, BitVec.ofNat_toNat, BitVec.setWidth_eq]

/-- Readable bytes that start with the image of `x` are read as `x`. -/
theorem Valid.readInt_of_content {b : ByteBuffer} {n : Nat} {x : BitVec (8 * n)} {rest : Bytes}
    (h : b.Valid) (hc : b.content = beBytes n x.toNat ++ rest) :
    (b.readInt n).2 = x ∧ (b.readInt n).1.content = rest := by
  have hlen : n ≤ b.readableBytes := by
    rw [← h.length_content, hc, List.length_append, length_beBytes]
    omega
  refine ⟨?_, ?_⟩
  · simp only [readInt, h.peekInt_eq hlen, hc]
    rw [List.take_left' (length_beBytes n _), ofNat_beNat_beBytes]
  · simp only [readInt, h.content_retrieve hlen, hc]
    exact List.drop_left' (length_beBytes n _)

end ByteBuffer

/-- A buffer that carries its index invariant. The operations below are those
of the source, so no value of this type ever violates it. -/
structure Buffer extends ByteBuffer where
  valid : toByteBuffer.Valid

namespace Buffer

/-- A fresh buffer of the default size. -/
def empty : Buffer := ⟨ByteBuffer.ofSize ByteBuffer.kInitialSize, ByteBuffer.ofSize_valid _⟩

/-- `append` keeps the indices in order. -/
def append (b : Buffer) (data : Bytes) : Buffer :=
  ⟨b.toByteBuffer.append data, (b.valid.append data).1⟩

/-- `retrieve` keeps the indices in order. -/
def retrieve (b : Buffer) (len : Nat) : Buffer :=
  ⟨(b.toByteBuffer.retrieve len).1, b.valid.retrieve len⟩

/-- `readFd` keeps the indices in order. -/
def readFd (b : Buffer) (available : Bytes) : Buffer × Nat :=
  (⟨(b.toByteBuffer.readFd available).1, (b.valid.readFd available).1⟩,
    (b.toByteBuffer.readFd available).2)

/-- A new buffer is empty. -/
@[simp] theorem content_empty : empty.content = [] := ByteBuffer.content_ofSize _

/-- `append` puts the bytes behind the content. -/
@[simp] theorem content_append (b : Buffer) (data : Bytes) :
    (b.append data).content = b.content ++ data := (b.valid.append data).2

/-- The content is what is readable. -/
@[simp] theorem length_content (b : Buffer) : b.content.length = b.readableBytes :=
  b.valid.length_content

/-- `retrieve` takes the front off the content. -/
theorem content_retrieve {b : Buffer} {len : Nat} (h : len ≤ b.readableBytes) :
    (b.retrieve len).content = b.content.drop len := b.valid.content_retrieve h

/-- `peek` shows the front of the content. -/
theorem peek_eq {b : Buffer} {n : Nat} (h : n ≤ b.readableBytes) :
    b.peek n = b.content.take n := b.valid.peek_eq h

end Buffer

end ChatRoom.Net
