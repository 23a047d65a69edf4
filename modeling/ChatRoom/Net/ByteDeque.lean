import ChatRoom.Core.Run
import ChatRoom.Net.ByteBufferSpec

/-!
# ByteBuffer refines a byte deque

The abstract component is a pair of byte lists: the buffer in use and the one
`swap` exchanges it with. Bytes enter at the back, may be put in front while
there is room before the readable ones, and leave at either end. The only thing
the abstract step is told about the vector is that room.
-/

namespace ChatRoom.Net

open ChatRoom.Core

/-- A call on the buffer; the integer calls carry their width in bytes. -/
inductive BufferOp where
  | append (data : Bytes)
  | appendInt (n : Nat) (x : BitVec (8 * n))
  | prepend (data : Bytes)
  | prependInt (n : Nat) (x : BitVec (8 * n))
  | retrieve (len : Nat)
  | retrieveAsString (len : Nat)
  | retrieveAll
  | unwrite (len : Nat)
  | ensureWritableBytes (len : Nat)
  | shrink (reserve : Nat)
  | swap
  | peekInt (n : Nat)
  | readInt (n : Nat)

/-- What a call returns. -/
inductive BufferReply where
  | unit
  | flag (ok : Bool)
  | text (s : Bytes)
  | int (n : Nat) (x : BitVec (8 * n))

/-- One call on the first of two buffers. -/
def bufferStep (s : ByteBuffer × ByteBuffer) : BufferOp → (ByteBuffer × ByteBuffer) × BufferReply
  | .append data => ((s.1.append data, s.2), .unit)
  | .appendInt n x => ((s.1.appendInt n x, s.2), .unit)
  | .prepend data => (((s.1.prepend data).1, s.2), .flag (s.1.prepend data).2)
  | .prependInt n x => ((s.1.prependInt n x, s.2), .unit)
  | .retrieve len => (((s.1.retrieve len).1, s.2), .flag (s.1.retrieve len).2)
  | .retrieveAsString len =>
    (((s.1.retrieveAsString len).1, s.2), .text (s.1.retrieveAsString len).2)
  | .retrieveAll => ((s.1.retrieveAll, s.2), .unit)
  | .unwrite len => (((s.1.unwrite len).1, s.2), .flag (s.1.unwrite len).2)
  | .ensureWritableBytes len =>
    (((s.1.ensureWritableBytes len).1, s.2), .flag (s.1.ensureWritableBytes len).2)
  | .shrink reserve => ((s.1.shrink reserve, s.2), .unit)
  | .swap => ((s.2, s.1), .unit)
  | .peekInt n => (s, .int n (s.1.peekInt n))
  | .readInt n => (((s.1.readInt n).1, s.2), .int n (s.1.readInt n).2)

/-- The front of a deque read as an integer, minus one when it is too short. -/
def Deque.front (n : Nat) (l : Bytes) : BitVec (8 * n) :=
  if l.length < n then -1 else BitVec.ofNat (8 * n) (beNat (l.take n))

/-- The abstract call, on the lists alone; `room` is the space in front of the first. -/
def Deque.step (d : Bytes × Bytes) (call : Nat × BufferOp) : (Bytes × Bytes) × BufferReply :=
  let room := call.1
  match call.2 with
  | .append data => ((d.1 ++ data, d.2), .unit)
  | .appendInt n x => ((d.1 ++ beBytes n x.toNat, d.2), .unit)
  | .prepend data =>
    if data.length ≤ room then ((data ++ d.1, d.2), .flag true) else (d, .flag false)
  | .prependInt n x => if n ≤ room then ((beBytes n x.toNat ++ d.1, d.2), .unit) else (d, .unit)
  | .retrieve len =>
    if len ≤ d.1.length then ((d.1.drop len, d.2), .flag true) else (d, .flag false)
  | .retrieveAsString len =>
    if len ≤ d.1.length then ((d.1.drop len, d.2), .text (d.1.take len)) else (d, .text [])
  | .retrieveAll => (([], d.2), .unit)
  | .unwrite len =>
    if len ≤ d.1.length then ((d.1.take (d.1.length - len), d.2), .flag true)
    else (d, .flag false)
  | .ensureWritableBytes _ => (d, .flag true)
  | .shrink _ => (d, .unit)
  | .swap => ((d.2, d.1), .unit)
  | .peekInt n => (d, .int n (Deque.front n d.1))
  | .readInt n => (if n ≤ d.1.length then (d.1.drop n, d.2) else d, .int n (Deque.front n d.1))

/-- Both buffers keep their invariant and hold the two lists. -/
structure Refines (s : ByteBuffer × ByteBuffer) (d : Bytes × Bytes) : Prop where
  valid : s.1.Valid
  otherValid : s.2.Valid
  content : s.1.content = d.1
  otherContent : s.2.content = d.2

/-- What a call on the first buffer alone has to establish. -/
private theorem Refines.first {s : ByteBuffer × ByteBuffer} {d : Bytes × Bytes} (h : Refines s d)
    {b : ByteBuffer} {l : Bytes} (hb : b.Valid) (hl : b.content = l) :
    Refines (b, s.2) (l, d.2) := ⟨hb, h.otherValid, hl, h.otherContent⟩

private theorem Refines.readable {s : ByteBuffer × ByteBuffer} {d : Bytes × Bytes}
    (h : Refines s d) : s.1.readableBytes = d.1.length := by
  rw [← h.content, h.valid.length_content]

private theorem Refines.peekInt_eq {s : ByteBuffer × ByteBuffer} {d : Bytes × Bytes}
    (h : Refines s d) (n : Nat) : s.1.peekInt n = Deque.front n d.1 := by
  unfold Deque.front
  split
  · next hlt => exact ByteBuffer.peekInt_of_lt (by rw [h.readable]; exact hlt)
  · next hge => rw [h.valid.peekInt_eq (by rw [h.readable]; omega), h.content]

private theorem Refines.retrieve {s : ByteBuffer × ByteBuffer} {d : Bytes × Bytes}
    (h : Refines s d) (len : Nat) :
    Refines ((s.1.retrieve len).1, s.2) (if len ≤ d.1.length then (d.1.drop len, d.2) else d) := by
  have hr := h.readable
  split
  · next hle =>
    exact h.first (h.valid.retrieve len)
      (by rw [h.valid.content_retrieve (by omega), h.content])
  · next hgt => rw [ByteBuffer.retrieve_of_lt (by omega)]; exact h

/-- One call on the buffers is one call on the lists, with the same reply. -/
theorem bufferStep_refines (s : ByteBuffer × ByteBuffer) (d : Bytes × Bytes) (op : BufferOp)
    (h : Refines s d) :
    Refines (bufferStep s op).1 (Deque.step d (s.1.prependableBytes, op)).1 ∧
      (bufferStep s op).2 = (Deque.step d (s.1.prependableBytes, op)).2 := by
  have hr := h.readable
  cases op with
  | append data =>
    obtain ⟨hv, hc⟩ := h.valid.append data
    exact ⟨h.first hv (by rw [hc, h.content]), rfl⟩
  | appendInt n x =>
    obtain ⟨hv, hc⟩ := h.valid.appendInt x
    exact ⟨h.first hv (by rw [hc, h.content]), rfl⟩
  | prepend data =>
    simp only [bufferStep, Deque.step]
    split
    · next hle =>
      obtain ⟨hv, hf, hc⟩ := h.valid.prepend hle
      exact ⟨h.first hv (by rw [hc, h.content]), by rw [hf]⟩
    · next hgt => rw [ByteBuffer.prepend_of_lt (by omega)]; exact ⟨h, rfl⟩
  | prependInt n x =>
    have hlen := length_beBytes n x.toNat
    simp only [bufferStep, Deque.step, ByteBuffer.prependInt]
    split
    · next hle =>
      have hroom : (beBytes n x.toNat).length ≤ s.1.prependableBytes := by rw [hlen]; exact hle
      obtain ⟨hv, _, hc⟩ := h.valid.prepend hroom
      exact ⟨h.first hv (by rw [hc, h.content]), rfl⟩
    · next hgt => rw [ByteBuffer.prepend_of_lt (by omega)]; exact ⟨h, rfl⟩
  | retrieve len =>
    have hstep := h.retrieve len
    simp only [bufferStep, Deque.step]
    split
    · next hle =>
      rw [if_pos hle] at hstep
      exact ⟨hstep, by rw [ByteBuffer.retrieve_flag (by omega)]⟩
    · next hgt => rw [ByteBuffer.retrieve_of_lt (by omega)]; exact ⟨h, rfl⟩
  | retrieveAsString len =>
    have hstep := h.retrieve len
    simp only [bufferStep, Deque.step, ByteBuffer.retrieveAsString]
    by_cases hle : len ≤ d.1.length
    · rw [if_pos hle] at hstep
      rw [if_pos hle, if_neg (by omega)]
      exact ⟨hstep, by rw [h.valid.peek_eq (by omega), h.content]⟩
    · rw [if_neg hle, if_pos (by omega)]
      exact ⟨h, rfl⟩
  | retrieveAll => exact ⟨h.first h.valid.retrieveAll (ByteBuffer.content_retrieveAll _), rfl⟩
  | unwrite len =>
    simp only [bufferStep, Deque.step]
    split
    · next hle =>
      have hread : len ≤ s.1.readableBytes := by omega
      obtain ⟨hv, hf, hc⟩ := h.valid.unwrite hread
      exact ⟨h.first hv (by rw [hc, h.content]), by rw [hf]⟩
    · next hgt => rw [ByteBuffer.unwrite_of_lt (by omega)]; exact ⟨h, rfl⟩
  | ensureWritableBytes len =>
    obtain ⟨hv, hc, _⟩ := h.valid.ensureWritableBytes len
    refine ⟨h.first hv (by rw [hc, h.content]), ?_⟩
    simp only [bufferStep, Deque.step, ByteBuffer.ensureWritableBytes]
    split <;> rfl
  | shrink reserve =>
    obtain ⟨hv, hc⟩ := h.valid.shrink reserve
    exact ⟨h.first hv (by rw [hc, h.content]), rfl⟩
  | swap => exact ⟨⟨h.otherValid, h.valid, h.otherContent, h.content⟩, rfl⟩
  | peekInt n => exact ⟨h, by simp only [bufferStep, Deque.step, h.peekInt_eq]⟩
  | readInt n =>
    exact ⟨h.retrieve n, by simp only [bufferStep, Deque.step, ByteBuffer.readInt, h.peekInt_eq]⟩

/-- The calls of a run as the deque sees them: each with the room in front at that moment. -/
def dequeScript (s : ByteBuffer × ByteBuffer) (ops : List BufferOp) : List (Nat × BufferOp) :=
  script bufferStep (fun s op => (s.1.prependableBytes, op)) s ops

/-- Two fresh buffers of any sizes stay refinements of two lists along every run. -/
theorem exec_refines (m k : Nat) (ops : List BufferOp) :
    Refines (exec bufferStep (.ofSize m, .ofSize k) ops).1
        (exec Deque.step ([], []) (dequeScript (.ofSize m, .ofSize k) ops)).1 ∧
      (exec bufferStep (.ofSize m, .ofSize k) ops).2 =
        (exec Deque.step ([], []) (dequeScript (.ofSize m, .ofSize k) ops)).2 :=
  exec_simulates bufferStep_refines ops
    ⟨ByteBuffer.ofSize_valid m, ByteBuffer.ofSize_valid k, ByteBuffer.content_ofSize m,
      ByteBuffer.content_ofSize k⟩

/-- The call reports that it could not do what was asked: `false`, an empty
string, or an integer read from too few bytes. -/
def ReportsFailure (s : ByteBuffer × ByteBuffer) : BufferOp → Prop
  | .retrieveAsString len => (s.1.retrieveAsString len).2 = []
  | .peekInt n | .readInt n => s.1.readableBytes < n
  | op => (bufferStep s op).2 = .flag false

/-- A call that reports failure leaves the readable bytes of both buffers alone. -/
theorem Refines.failure_unchanged {s : ByteBuffer × ByteBuffer} {d : Bytes × Bytes}
    (h : Refines s d) (op : BufferOp) (hf : ReportsFailure s op) :
    (bufferStep s op).1.1.content = s.1.content ∧ (bufferStep s op).1.2.content = s.2.content := by
  obtain ⟨hstep, hreply⟩ := bufferStep_refines s d op h
  rw [hstep.content, hstep.otherContent, h.content, h.otherContent]
  have hr := h.readable
  cases op with
  | append data => cases hf
  | appendInt n x => cases hf
  | prependInt n x => cases hf
  | retrieveAll => cases hf
  | shrink reserve => cases hf
  | swap => cases hf
  | peekInt n => exact ⟨rfl, rfl⟩
  | ensureWritableBytes len => exact ⟨rfl, rfl⟩
  | prepend data | retrieve len | unwrite len =>
    simp only [ReportsFailure, hreply, Deque.step] at hf ⊢
    split at hf
    · cases hf
    · next hgt => rw [if_neg hgt]; exact ⟨rfl, rfl⟩
  | retrieveAsString len =>
    simp only [Deque.step]
    split
    · next hle =>
      have htake : d.1.take len = [] := by
        simpa only [ReportsFailure, ByteBuffer.retrieveAsString, if_neg (show ¬ s.1.readableBytes < len
          by omega), h.valid.peek_eq (show len ≤ s.1.readableBytes by omega), h.content] using hf
      have hzero : d.1.drop len = d.1 := by
        have happ := List.take_append_drop len d.1
        rwa [htake, List.nil_append] at happ
      exact ⟨hzero, rfl⟩
    · exact ⟨rfl, rfl⟩
  | readInt n =>
    have hlt : ¬ n ≤ d.1.length := by
      simp only [ReportsFailure, hr] at hf
      omega
    simp only [Deque.step, if_neg hlt, and_self]

/-- ByteBuffer is a byte deque. After every sequence of calls on fresh buffers
of any sizes: the indices are in order, the readable bytes and every reply are
those of the abstract deque, space asked for is there, an integer reads back as
it was appended or prepended, and a call that reports failure changes no
readable byte. -/
theorem byteBuffer_refines_deque (m k : Nat) (ops : List BufferOp) :
    let run := exec bufferStep (.ofSize m, .ofSize k) ops
    let abstract := exec Deque.step ([], []) (dequeScript (.ofSize m, .ofSize k) ops)
    let b := run.1.1
    (b.readerIndex ≤ b.writerIndex ∧ b.writerIndex ≤ b.buffer.length) ∧
    (b.content, run.1.2.content) = abstract.1 ∧
    run.2 = abstract.2 ∧
    (∀ len, len ≤ (b.ensureWritableBytes len).1.writableBytes) ∧
    (∀ n (x : BitVec (8 * n)),
      (((b.appendInt n x).retrieve b.content.length).1.readInt n).2 = x) ∧
    (∀ n (x : BitVec (8 * n)), n ≤ b.prependableBytes →
      ((b.prependInt n x).readInt n).2 = x ∧
      ((b.prependInt n x).readInt n).1.content = b.content) ∧
    (∀ op, ReportsFailure run.1 op →
      (bufferStep run.1 op).1.1.content = b.content ∧
      (bufferStep run.1 op).1.2.content = run.1.2.content) := by
  obtain ⟨href, hreply⟩ := exec_refines m k ops
  intro run abstract b
  have hv : b.Valid := href.valid
  refine ⟨⟨hv.reader_le, hv.writer_le⟩, Prod.ext href.content href.otherContent, hreply,
    fun len => (hv.ensureWritableBytes len).2.2, ?_, ?_, href.failure_unchanged⟩
  · intro n x
    obtain ⟨hva, hca⟩ := hv.appendInt x
    have hlen : b.content.length ≤ (b.appendInt n x).readableBytes := by
      rw [← hva.length_content, hca, List.length_append]
      omega
    have hdrop := hva.content_retrieve hlen
    rw [hca, List.drop_left, ← List.append_nil (beBytes n x.toNat)] at hdrop
    exact ((hva.retrieve _).readInt_of_content hdrop).1
  · intro n x hroom
    have hlen : (beBytes n x.toNat).length ≤ b.prependableBytes := by
      rw [length_beBytes]; exact hroom
    obtain ⟨hvp, _, hcp⟩ := hv.prepend hlen
    exact hvp.readInt_of_content hcp

/-- Four bytes appended as an integer, slid to the front by a later growth, read back. -/
example :
    let b := (ByteBuffer.ofSize 4).appendInt32 0x01020304
    (b.readInt32.2, (b.retrieve 3).1.content, (b.prepend [9]).1.content) =
      (0x01020304, [4], [9, 1, 2, 3, 4]) := by
  decide

end ChatRoom.Net
