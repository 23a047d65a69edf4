import ChatRoom.Core.Run
import ChatRoom.Net.ProtocolStream

/-!
# The cursor of BinaryStreamReader

The constructor moves the cursor over the inner header without looking at the length of
the packet, and each read compares with the end at a moment of its own: the fixed-width
ones before they move, the string reads once for the length bytes and once more, having
moved over these, for the payload. What every read does to the cursor is one structure,
`Moves`; a sequence of reads of any kind and outcome is a run.
-/

namespace ChatRoom.Net

open ChatRoom.Core

namespace BinaryStreamReader

/-- A call of one of the eight reads. `ReadCString` fills an array of `strlen` bytes, so its
argument is that array; `ReadInt64` has an array of its own, which it does not initialise. -/
inductive Read
  | int32
  | int64 (int64str : Fin 128 → UInt8)
  | short
  | char
  | string (maxlen : Nat)
  | cString (str : Bytes)
  | ccString (maxlen : Nat)
  | length

/-- What a read returns. The number of `ReadInt64` is missing when `atoll` leaves the array. -/
inductive Got
  | failed
  | int32 (i : BitVec 32)
  | int64 (i : Option (BitVec 64))
  | short (i : BitVec 16)
  | char (c : UInt8)
  | string (s : Bytes)
  | length (n : Nat)

/-- The reader after a read, and what was returned. -/
def serve (r : BinaryStreamReader) : Read → BinaryStreamReader × Got
  | .int32 => (r.readInt32.1, r.readInt32.2.elim .failed .int32)
  | .int64 int64str =>
    let out := r.readCString (List.ofFn int64str) 128
    (out.1, out.2.elim .failed fun str => .int64 (atoll str.1))
  | .short => (r.readShort.1, r.readShort.2.elim .failed .short)
  | .char => (r.readChar.1, r.readChar.2.elim .failed .char)
  | .string maxlen =>
    let out := r.readString maxlen
    (out.1, out.2.elim .failed .string)
  | .cString str =>
    let out := r.readCString str str.length
    (out.1, out.2.elim .failed fun str => .string (str.1.take str.2))
  | .ccString maxlen =>
    let out := r.readCCString maxlen
    (out.1, out.2.elim .failed fun str => .string (slice r.data str.1 (str.1 + str.2)))
  | .length => (r.readLength.1, r.readLength.2.elim .failed .length)

/-- A read with the memory outside the packet as it is at the time of the call. -/
def call (r : BinaryStreamReader) (c : Beyond × Read) : BinaryStreamReader × Got :=
  ({ r with beyond := c.1 } : BinaryStreamReader).serve c.2

/-- The reader of a packet after a sequence of calls. -/
def afterCalls (data : Bytes) (beyond : Beyond) (calls : List (Beyond × Read)) :
    BinaryStreamReader :=
  calls.foldl (fun r c => (r.call c).1) (new data beyond)

variable {r : BinaryStreamReader}

/-- `ReadInt64` is this read, as long as `atoll` stays in the array. -/
theorem readInt64_eq_serve {int64str : Fin 128 → UInt8} {r' : BinaryStreamReader}
    {i : Option (BitVec 64)} (h : r.readInt64 int64str = some (r', i)) :
    r.serve (.int64 int64str) = (r', i.elim .failed fun i => .int64 (some i)) := by
  rw [readInt64] at h
  rw [serve]
  rcases hout : r.readCString (List.ofFn int64str) 128 with ⟨r₁, _ | ⟨str, outlen⟩⟩
  · rw [hout] at h
    cases h
    rfl
  · rw [hout] at h
    obtain ⟨value, hvalue, heq⟩ := Option.map_eq_some_iff.mp h
    cases heq
    dsimp only [Option.elim]
    rw [hvalue]

/-! ## One read -/

/-- What a read may do: move the cursor forwards inside the packet, or leave it; a string that
it returns is what the cursor went over last. At the end of the packet, every read fails. -/
structure Moves (r : BinaryStreamReader) (out : BinaryStreamReader × Got) : Prop where
  data : out.1.data = r.data
  forwards : r.cur ≤ out.1.cur
  inside : out.1.cur = r.cur ∨ out.1.cur ≤ r.data.length
  at_end : r.data.length ≤ r.cur → out.1.cur = r.cur ∧ out.2 = .failed
  string : ∀ s, out.2 = .string s → ∃ start, r.cur ≤ start ∧ start ≤ out.1.cur ∧
    out.1.cur ≤ r.data.length ∧ s = slice r.data start out.1.cur

private theorem Moves.fail : Moves r (r, .failed) :=
  ⟨rfl, Nat.le_refl _, Or.inl rfl, fun _ => ⟨rfl, rfl⟩, fun _ h => nomatch h⟩

/-- A read that moves the cursor by `n` bytes of the packet. -/
theorem Moves.step {n : Nat} {got : Got} (hpos : 0 < n) (hfits : r.cur + n ≤ r.data.length)
    (hstring : ∀ s, got = .string s → ∃ start, r.cur ≤ start ∧ start ≤ r.cur + n ∧
      s = slice r.data start (r.cur + n)) :
    Moves r ({ r with cur := r.cur + n }, got) := by
  refine ⟨rfl, Nat.le_add_right _ _, Or.inr hfits, fun hend => ?_, fun s hs => ?_⟩
  · exact absurd hfits (by omega)
  · obtain ⟨start, hlow, hhigh, heq⟩ := hstring s hs
    exact ⟨start, hlow, hhigh, hfits, heq⟩

/-- A read of `n` bytes, which looks for the end of the packet before it moves. -/
theorem moves_fixed {α : Type} {n : Nat} {value : α} {out : BinaryStreamReader × Option α}
    (hpos : 0 < n)
    (hout : out =
      if r.data.length < r.cur + n then (r, none) else ({ r with cur := r.cur + n }, some value))
    (result : α → Got) (hstring : ∀ x s, result x ≠ .string s) :
    Moves r (out.1, out.2.elim .failed result) := by
  rw [hout]
  split
  · exact Moves.fail
  · next hfits =>
    exact Moves.step hpos (Nat.not_lt.mp hfits) fun s hs => absurd hs (hstring value s)

private theorem lengthBytes_pos (r : BinaryStreamReader) (fuel i : Nat) :
    0 < (r.lengthBytes (fuel + 1) i).length := by
  simp only [lengthBytes]
  split <;> exact Nat.zero_lt_succ _

/-- A length is only returned when its bytes, of which there is one at least, are inside. -/
theorem readLengthWithoutOffset_some {headlen outlen : Nat}
    (h : r.readLengthWithoutOffset = some (headlen, outlen)) :
    0 < headlen ∧ r.cur + headlen ≤ r.data.length := by
  simp only [readLengthWithoutOffset] at h
  split at h
  · cases h
  · next hfits =>
    cases h
    exact ⟨lengthBytes_pos r 4 r.cur, Nat.not_lt.mp hfits⟩

/-- What the three string reads share: the offset and the length of the payload, which the
caller's bound may refuse. -/
def readField (r : BinaryStreamReader) (refused : Nat → Prop) [DecidablePred refused] :
    BinaryStreamReader × Option (Nat × Nat) :=
  match r.readLengthWithoutOffset with
  | none => (r, none)
  | some (headlen, fieldlen) =>
    if refused fieldlen then (r, none)
    else
      let start := r.cur + headlen
      if r.data.length < start + fieldlen then ({ r with cur := start }, none)
      else ({ r with cur := start + fieldlen }, some (start, fieldlen))

private theorem readCCString_eq (r : BinaryStreamReader) (maxlen : Nat) :
    r.readCCString maxlen = r.readField fun fieldlen => maxlen ≠ 0 ∧ maxlen < fieldlen := rfl

private theorem readString_eq (r : BinaryStreamReader) (maxlen : Nat) :
    r.readString maxlen =
      ((r.readCCString maxlen).1,
        (r.readCCString maxlen).2.map fun str => slice r.data str.1 (str.1 + str.2)) := by
  rw [readString, readCCString]
  rcases r.readLengthWithoutOffset with _ | ⟨headlen, fieldlen⟩
  · rfl
  · dsimp only
    split
    · rfl
    · split <;> rfl

private theorem readCString_eq (r : BinaryStreamReader) (str : Bytes) (strlen : Nat) :
    r.readCString str strlen =
      ((r.readField (strlen < ·)).1, (r.readField (strlen < ·)).2.map fun field =>
        (overwrite str 0 (slice r.data field.1 (field.1 + field.2)), field.2)) := by
  rw [readCString, readField]
  rcases r.readLengthWithoutOffset with _ | ⟨headlen, fieldlen⟩
  · rfl
  · dsimp only
    split
    · rfl
    · split <;> rfl

/-- A string read that finds its payload passes on what `result` makes of it; the only string
this may be is the payload. -/
theorem moves_readField (refused : Nat → Prop) [DecidablePred refused] (result : Nat × Nat → Got)
    (hstring : ∀ start len s, ¬ refused len → start + len ≤ r.data.length →
      result (start, len) = .string s → s = slice r.data start (start + len)) :
    Moves r ((r.readField refused).1, (r.readField refused).2.elim .failed result) := by
  rw [readField]
  cases hheader : r.readLengthWithoutOffset with
  | none => exact Moves.fail
  | some header =>
    obtain ⟨headlen, fieldlen⟩ := header
    obtain ⟨hpos, hhead⟩ := readLengthWithoutOffset_some hheader
    dsimp only
    by_cases hrefused : refused fieldlen
    · rw [if_pos hrefused]
      exact Moves.fail
    · rw [if_neg hrefused]
      by_cases hshort : r.data.length < r.cur + headlen + fieldlen
      · -- the payload is missing: the cursor stays behind the length bytes
        rw [if_pos hshort]
        exact Moves.step hpos hhead fun s hs => nomatch hs
      · rw [if_neg hshort]
        rw [Nat.not_lt] at hshort
        simp only [Nat.add_assoc r.cur headlen fieldlen]
        refine Moves.step (by omega) (by omega) fun s hs => ?_
        refine ⟨r.cur + headlen, by omega, by omega, ?_⟩
        rw [← Nat.add_assoc]
        exact hstring _ _ s hrefused hshort hs

/-- The array of `ReadCString` starts with what was copied into it. -/
theorem take_overwrite {str payload : Bytes} (h : payload.length ≤ str.length) :
    (overwrite str 0 payload).take payload.length = payload := by
  have hself := @slice_overwrite_self _ str 0 payload (by rw [Nat.zero_add]; exact h)
  rw [slice, List.drop_zero, Nat.zero_add] at hself
  exact hself

private theorem moves_serve (r : BinaryStreamReader) (c : Read) : Moves r (r.serve c) := by
  cases c with
  | int32 => exact moves_fixed (by decide) rfl _ fun _ _ hs => nomatch hs
  | short => exact moves_fixed (by decide) rfl _ fun _ _ hs => nomatch hs
  | char => exact moves_fixed (by decide) rfl _ fun _ _ hs => nomatch hs
  | length =>
    rw [serve, readLength]
    cases hheader : r.readLengthWithoutOffset with
    | none => exact Moves.fail
    | some header =>
      obtain ⟨hpos, hhead⟩ := readLengthWithoutOffset_some hheader
      exact Moves.step hpos hhead fun s hs => nomatch hs
  | ccString maxlen =>
    rw [serve, readCCString_eq]
    refine moves_readField _ _ fun start len s _ _ hs => ?_
    cases hs
    rfl
  | string maxlen =>
    simp only [serve, readString_eq, readCCString_eq, Option.elim_map]
    refine moves_readField _ _ fun start len s _ _ hs => ?_
    cases hs
    rfl
  | cString str =>
    simp only [serve, readCString_eq, Option.elim_map]
    refine moves_readField _ _ fun start len s hroom hfits hs => ?_
    cases hs
    have hlen : (slice r.data start (start + len)).length = len := by
      rw [length_slice hfits, Nat.add_sub_cancel_left]
    have hcopied := @take_overwrite str (slice r.data start (start + len)) (by omega)
    rw [hlen] at hcopied
    exact hcopied
  | int64 int64str =>
    simp only [serve, readCString_eq, Option.elim_map]
    exact moves_readField _ _ fun start len s _ _ hs => nomatch hs

/-- The memory outside the packet decides neither the packet nor where the cursor was. -/
theorem moves_call (r : BinaryStreamReader) (c : Beyond × Read) : Moves r (r.call c) := by
  obtain ⟨hdata, hforwards, hinside, hend, hstring⟩ :=
    moves_serve ({ r with beyond := c.1 } : BinaryStreamReader) c.2
  exact ⟨hdata, hforwards, hinside, hend, hstring⟩

/-! ## Any number of reads -/

/-- Behind the inner header, and inside the packet if that is long enough for one. -/
structure CursorInside (data : Bytes) (r : BinaryStreamReader) : Prop where
  packet : r.data = data
  low : 6 ≤ r.cur
  high : r.cur ≤ max data.length 6

private theorem CursorInside.new (data : Bytes) (beyond : Beyond) :
    CursorInside data (new data beyond) :=
  ⟨rfl, Nat.le_refl 6, Nat.le_max_right _ _⟩

private theorem CursorInside.call {data : Bytes} (h : CursorInside data r) (c : Beyond × Read) :
    CursorInside data (r.call c).1 := by
  obtain ⟨rfl, hlow, hhigh⟩ := h
  obtain ⟨hdata, hforwards, hinside, _, _⟩ := moves_call r c
  refine ⟨hdata, Nat.le_trans hlow hforwards, ?_⟩
  rcases hinside with hsame | hinside
  · rw [hsame]
    exact hhigh
  · exact Nat.le_trans hinside (Nat.le_max_left _ _)

private theorem cursorInside_afterCalls (data : Bytes) (beyond : Beyond)
    (calls : List (Beyond × Read)) :
    CursorInside data (afterCalls data beyond calls) :=
  foldl_invariant (CursorInside.new data beyond) (fun _ c h => h.call c) calls

private theorem isEnd_of_le (h : r.cur ≤ r.data.length) :
    r.isEnd = some (decide (r.cur = r.data.length)) := by
  rw [isEnd, if_neg (Nat.not_lt.mpr h)]

/-- After any calls on any packet the cursor is behind the inner header and inside the packet,
the assertion of `IsEnd` holds unless the packet is shorter than the header, and the next
call moves the cursor forwards or not at all, never in a packet shorter than the header;
a string it returns is the slice of the packet that ends at the new cursor. -/
theorem cursor_of_every_run (data : Bytes) (beyond : Beyond) (calls : List (Beyond × Read)) :
    (6 ≤ (afterCalls data beyond calls).cur ∧
      (afterCalls data beyond calls).cur ≤ max data.length 6) ∧
    (6 ≤ data.length → (afterCalls data beyond calls).isEnd =
      some (decide ((afterCalls data beyond calls).cur = data.length))) ∧
    ∀ c : Beyond × Read,
      (afterCalls data beyond calls).cur ≤ ((afterCalls data beyond calls).call c).1.cur ∧
      (data.length < 6 → ((afterCalls data beyond calls).call c).2 = .failed ∧
        ((afterCalls data beyond calls).call c).1.cur = (afterCalls data beyond calls).cur) ∧
      ∀ s, ((afterCalls data beyond calls).call c).2 = .string s →
        ∃ start, (afterCalls data beyond calls).cur ≤ start ∧
          start ≤ ((afterCalls data beyond calls).call c).1.cur ∧
          ((afterCalls data beyond calls).call c).1.cur ≤ data.length ∧
          s = slice data start ((afterCalls data beyond calls).call c).1.cur := by
  have hinv := cursorInside_afterCalls data beyond calls
  generalize afterCalls data beyond calls = r at hinv
  obtain ⟨rfl, hlow, hhigh⟩ := hinv
  refine ⟨⟨hlow, hhigh⟩, fun hlong => isEnd_of_le (by omega), fun c => ?_⟩
  obtain ⟨_, hforwards, _, hend, hstring⟩ := moves_call r c
  exact ⟨hforwards, fun hshort => (hend (by omega)).symm, hstring⟩

end BinaryStreamReader

end ChatRoom.Net
