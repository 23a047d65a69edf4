import ChatRoom.Core.Traced
import ChatRoom.Chat.Wire

/-!
# What the decoder touches

The reads of `ChatSession::process` once more, recording every byte of the packet
they look at, every index into the five-byte array of `ReadLengthWithoutOffset` and
every shift amount of `read7BitEncoded`. The packet is `inbuf.c_str()`, so the byte
after its end is a NUL, and that stops the copy loop. Nothing stops the loop of
`read7BitEncoded` in an array of five bytes whose top bits are all set.
-/

namespace ChatRoom.Chat

open ChatRoom.Core Net

/-- Something the decoder reads or shifts by. -/
inductive Access where
  | packet (i : Nat)
  | array (i : Nat)
  | shift (bits : Nat)
  deriving DecidableEq, Repr

/-- The memory after `inbuf.c_str()`: the terminating NUL, then anything. -/
def cStr (after : Nat → UInt8) (overrun : BitVec 32) : Beyond :=
  ⟨fun | 0 => 0 | n + 1 => after n, overrun⟩

namespace BinaryStreamReader

/-- Up to `fuel` bytes from an offset on, ending with the first whose top bit is clear. -/
def lengthBytesT (r : BinaryStreamReader) : Nat → Nat → Traced Access Bytes
  | 0, _ => .pure []
  | fuel + 1, i =>
    Traced.bind ⟨r.byteAt i, [.packet i]⟩ fun c =>
      if c &&& 0x80 = 0 then .pure [c] else (lengthBytesT r fuel (i + 1)).map (c :: ·)

end BinaryStreamReader

/-- The loop of `read7BitEncoded` for at most `fuel` turns over the memory from the array on;
`none` when it is still running. -/
def read7BitLoopT (memory : Nat → UInt8) :
    Nat → Nat → Nat → BitVec 32 → Traced Access (Option (BitVec 32))
  | 0, _, _, _ => .pure none
  | fuel + 1, index, bitCount, value =>
    Traced.bind ⟨memory index, [.array index]⟩ fun c =>
      Traced.bind ⟨value + (BitVec.ofNat 32 (c &&& 0x7F).toNat <<< bitCount), [.shift bitCount]⟩
        fun value =>
          if c &&& 0x80 = 0 then .pure (some value)
          else read7BitLoopT memory fuel (index + 1) (bitCount + 7) value

/-- `read7BitEncoded` on the array: `stack` is what follows the bytes copied into it. -/
def read7BitEncodedT (stack : Nat → UInt8) (fuel : Nat) (buf : Bytes) :
    Traced Access (Option (BitVec 32)) :=
  read7BitLoopT (fun i => buf.getD i (stack (i - buf.length))) fuel 0 0 0#32

namespace BinaryStreamReader

section Reads

variable (stack : Nat → UInt8) (fuel : Nat) (r : BinaryStreamReader)

/-- `readLengthWithoutOffset` with its accesses; the decoded value is that of the memory behind when
the bytes do not end. -/
def readLengthWithoutOffsetT : Traced Access (Option (Nat × Nat)) :=
  (lengthBytesT r 5 r.cur).bind fun buf =>
    if r.data.length < r.cur + buf.length then .pure none
    else (read7BitEncodedT stack fuel buf).map fun value =>
      some (buf.length, (value.getD r.beyond.overrun).toNat)

/-- The bytes of the packet from an offset on are copied. -/
def copyT (start len : Nat) : Traced Access Bytes :=
  ⟨slice r.data start (start + len), (List.range' start len).map .packet⟩

/-- `ReadInt32` with its accesses. -/
def readInt32T : Traced Access (BinaryStreamReader × Option (BitVec 32)) :=
  if r.data.length < r.cur + 4 then .pure (r, none)
  else (copyT r r.cur 4).map fun bytes =>
    ({ r with cur := r.cur + 4 }, some (BitVec.ofNat 32 (beNat bytes)))

/-- `ReadString` with its accesses; it has moved past the length when the text is too short. -/
def readStringT (maxlen : Nat) : Traced Access (BinaryStreamReader × Option Bytes) :=
  (readLengthWithoutOffsetT stack fuel r).bind fun
    | none => .pure (r, none)
    | some (headlen, fieldlen) =>
      if maxlen ≠ 0 ∧ maxlen < fieldlen then .pure (r, none)
      else
        let start := r.cur + headlen
        if r.data.length < start + fieldlen then .pure ({ r with cur := start }, none)
        else (copyT r start fieldlen).map fun data =>
          ({ r with cur := start + fieldlen }, some data)

end Reads

end BinaryStreamReader

open BinaryStreamReader

/-- The reads at the top of `ChatSession::process`. -/
def readPacketT (stack : Nat → UInt8) (fuel : Nat) (beyond : Beyond) (body : Bytes) :
    Traced Access (Option Packet) :=
  (readInt32T (.new body beyond)).bind fun
    | (_, none) => .pure none
    | (r, some cmd) =>
      (readInt32T r).bind fun
        | (_, none) => .pure none
        | (r, some seq) =>
          (readStringT stack fuel r 0).map fun
            | (_, none) => none
            | (_, some data) => some ⟨cmd, seq, data⟩

/-- Inside the body or its terminating NUL, inside the array, and no shift by the whole width. -/
def Access.Inside (body : Bytes) : Access → Prop
  | .packet i => i ≤ body.length
  | .array i => i < 5
  | .shift bits => bits < 32

/-- The five bytes at the place of the length are all there and all have the top bit set. -/
def Overlong (body : Bytes) : Prop :=
  19 ≤ body.length ∧ ∀ i, 14 ≤ i → i < 19 → body.getD i 0 &&& 0x80 ≠ 0

/-! ## The copy loop -/

section CopyLoop

variable {r : BinaryStreamReader}

private theorem lengthBytesT_value (r : BinaryStreamReader) (fuel i : Nat) :
    (lengthBytesT r fuel i).value = r.lengthBytes fuel i := by
  induction fuel generalizing i with
  | zero => rfl
  | succ fuel ih =>
    simp only [lengthBytesT, BinaryStreamReader.lengthBytes, Traced.bind_value]
    split
    · rfl
    · rw [Traced.map_value, ih]

private theorem byteAt_end (h : r.beyond.past 0 = 0) : r.byteAt r.data.length = 0 := by
  rw [BinaryStreamReader.byteAt, List.getD_eq_getElem?_getD,
    List.getElem?_eq_none (Nat.le_refl _), Nat.sub_self, h]
  rfl

/-- The NUL stops the loop, so it stays inside the packet. -/
theorem lengthBytesT_inside (hnul : r.beyond.past 0 = 0) (fuel : Nat) {i : Nat}
    (hi : i ≤ r.data.length) : (lengthBytesT r fuel i).All (Access.Inside r.data) := by
  induction fuel generalizing i with
  | zero => exact Traced.all_pure _ _
  | succ fuel ih =>
    rw [lengthBytesT, Traced.all_bind, Traced.all_singleton]
    refine ⟨hi, ?_⟩
    split
    · exact Traced.all_pure _ _
    · next hset =>
      rw [Traced.all_map]
      apply ih
      have hne : i ≠ r.data.length := by
        rintro rfl
        have hzero := byteAt_end hnul
        simp only [hzero] at hset
        exact hset rfl
      omega

/-- A clear top bit within reach ends up in the array. -/
theorem lengthBytes_clear {fuel i j : Nat} (hj : j < fuel)
    (hclear : r.byteAt (i + j) &&& 0x80 = 0) :
    ∃ k, k < fuel ∧ ∀ d, (r.lengthBytes fuel i).getD k d &&& 0x80 = 0 := by
  induction fuel generalizing i j with
  | zero => omega
  | succ fuel ih =>
    simp only [BinaryStreamReader.lengthBytes]
    split
    · next h => exact ⟨0, Nat.succ_pos _, fun _ => h⟩
    · next h =>
      cases j with
      | zero => exact absurd hclear h
      | succ j =>
        have hnext : r.byteAt (i + 1 + j) &&& 0x80 = 0 := by
          rw [Nat.add_assoc, Nat.add_comm 1 j]
          exact hclear
        obtain ⟨k, hk, hbyte⟩ := ih (Nat.lt_of_succ_lt_succ hj) hnext
        exact ⟨k + 1, Nat.succ_lt_succ hk, hbyte⟩

/-- Without one, the loop fills the array. -/
theorem lengthBytes_set {fuel i : Nat} (hset : ∀ j, j < fuel → r.byteAt (i + j) &&& 0x80 ≠ 0) :
    (r.lengthBytes fuel i).length = fuel ∧
      ∀ k, k < fuel → ∀ d, (r.lengthBytes fuel i).getD k d &&& 0x80 ≠ 0 := by
  induction fuel generalizing i with
  | zero => exact ⟨rfl, fun k hk => absurd hk (Nat.not_lt_zero k)⟩
  | succ fuel ih =>
    have hfirst := hset 0 (Nat.succ_pos _)
    rw [Nat.add_zero] at hfirst
    obtain ⟨hlen, hbytes⟩ := ih (i := i + 1) fun j hj => by
      rw [Nat.add_assoc, Nat.add_comm 1 j]
      exact hset (j + 1) (Nat.succ_lt_succ hj)
    simp only [BinaryStreamReader.lengthBytes, if_neg hfirst]
    refine ⟨by rw [List.length_cons, hlen], fun k hk d => ?_⟩
    cases k with
    | zero => exact hfirst
    | succ k => exact hbytes k (Nat.lt_of_succ_lt_succ hk) d

end CopyLoop

/-! ## The decoding loop -/

/-- The loop stops at the first clear top bit, so one inside the array keeps it there. -/
theorem read7BitLoopT_inside {memory : Nat → UInt8} {body : Bytes} {k : Nat} (hk : k < 5)
    (hclear : memory k &&& 0x80 = 0) (fuel : Nat) {index : Nat} (hindex : index ≤ k)
    (value : BitVec 32) :
    (read7BitLoopT memory fuel index (7 * index) value).All (Access.Inside body) := by
  induction fuel generalizing index value with
  | zero => exact Traced.all_pure _ _
  | succ fuel ih =>
    have hshift : 7 * index < 32 := by omega
    rw [read7BitLoopT, Traced.all_bind, Traced.all_singleton, Traced.all_bind, Traced.all_singleton]
    refine ⟨Nat.lt_of_le_of_lt hindex hk, hshift, ?_⟩
    split
    · exact Traced.all_pure _ _
    · next hset =>
      have hne : index ≠ k := by
        rintro rfl
        exact hset hclear
      exact ih (by omega) _

/-- In an array without one the sixth turn leaves it. -/
theorem read7BitLoopT_overrun {memory : Nat → UInt8} {body : Bytes}
    (hset : ∀ k, k < 5 → memory k &&& 0x80 ≠ 0) :
    ¬ (read7BitLoopT memory 6 0 0 0#32).All (Access.Inside body) := by
  intro h
  have hmem : Access.array 5 ∈ (read7BitLoopT memory 6 0 0 0#32).accesses := by
    simp [read7BitLoopT, Traced.bind, hset 0, hset 1, hset 2, hset 3, hset 4]
  exact absurd (h _ hmem) (Nat.lt_irrefl 5)

/-! ## The three reads -/

section Reads

variable {r : BinaryStreamReader}

private theorem copyT_inside {start len : Nat} (h : start + len ≤ r.data.length) :
    (copyT r start len).All (Access.Inside r.data) := by
  intro a ha
  obtain ⟨i, hi, rfl⟩ := List.mem_map.mp ha
  have hrange := List.mem_range'_1.mp hi
  have hin : i ≤ r.data.length := by omega
  exact hin

private theorem readInt32T_value (r : BinaryStreamReader) : (readInt32T r).value = r.readInt32 := by
  simp only [readInt32T, BinaryStreamReader.readInt32]
  split <;> rfl

private theorem readInt32T_inside (r : BinaryStreamReader) :
    (readInt32T r).All (Access.Inside r.data) := by
  simp only [readInt32T]
  split
  · exact Traced.all_pure _ _
  · next h => exact copyT_inside (Nat.not_lt.mp h)

private theorem readInt32_short (h : r.data.length < r.cur + 4) : r.readInt32 = (r, none) := by
  rw [BinaryStreamReader.readInt32, if_pos h]

private theorem readInt32_long (h : ¬ r.data.length < r.cur + 4) :
    r.readInt32 = ({ r with cur := r.cur + 4 },
      some (BitVec.ofNat 32 (beNat (slice r.data r.cur (r.cur + 4))))) := by
  rw [BinaryStreamReader.readInt32, if_neg h]

/-- The data is copied only when it is all there, so the string stays inside as far as its
length does. -/
theorem readStringT_inside (stack : Nat → UInt8) (fuel : Nat) (r : BinaryStreamReader)
    (maxlen : Nat) :
    (readStringT stack fuel r maxlen).All (Access.Inside r.data) ↔
      (readLengthWithoutOffsetT stack fuel r).All (Access.Inside r.data) := by
  rw [readStringT, Traced.all_bind]
  apply and_iff_left
  cases (readLengthWithoutOffsetT stack fuel r).value with
  | none => exact Traced.all_pure _ _
  | some lens =>
    dsimp only
    split
    · exact Traced.all_pure _ _
    · split
      · exact Traced.all_pure _ _
      · next hfits => exact copyT_inside (Nat.not_lt.mp hfits)

/-- The length stays inside exactly when the loop of `read7BitEncoded` does. -/
theorem readLengthWithoutOffsetT_inside (hnul : r.beyond.past 0 = 0) (hcur : r.cur ≤ r.data.length)
    (stack : Nat → UInt8) (fuel : Nat) :
    (readLengthWithoutOffsetT stack fuel r).All (Access.Inside r.data) ↔
      (r.cur + (r.lengthBytes 5 r.cur).length ≤ r.data.length →
        (read7BitEncodedT stack fuel (r.lengthBytes 5 r.cur)).All (Access.Inside r.data)) := by
  rw [readLengthWithoutOffsetT, Traced.all_bind, lengthBytesT_value,
    and_iff_right (lengthBytesT_inside hnul 5 hcur)]
  split
  · next h =>
    exact iff_of_true (Traced.all_pure _ _) fun hle => absurd hle (Nat.not_le.mpr h)
  · next h =>
    rw [Traced.all_map]
    exact ⟨fun hall _ => hall, fun hall => hall (Nat.not_lt.mp h)⟩

/-- A length whose five bytes are not all there, or do not all have the top bit set, is decoded
inside the array; any other is not. -/
theorem readLengthWithoutOffsetT_inside_iff (hnul : r.beyond.past 0 = 0)
    (hcur : r.cur ≤ r.data.length) (stack : Nat → UInt8) :
    (∀ fuel, (readLengthWithoutOffsetT stack fuel r).All (Access.Inside r.data)) ↔
      ¬ (r.cur + 5 ≤ r.data.length ∧ ∀ j, j < 5 → r.byteAt (r.cur + j) &&& 0x80 ≠ 0) := by
  simp only [readLengthWithoutOffsetT_inside hnul hcur]
  constructor
  · rintro hall ⟨hlen, hset⟩
    obtain ⟨hfull, hbytes⟩ := lengthBytes_set hset
    have hover := hall 6 (by rw [hfull]; exact hlen)
    exact read7BitLoopT_overrun (fun k hk => hbytes k hk _) hover
  · intro hnot fuel hbound
    obtain ⟨j, hj, hclear⟩ : ∃ j, j < 5 ∧ r.byteAt (r.cur + j) &&& 0x80 = 0 := by
      by_contra hnone
      push Not at hnone
      refine hnot ⟨?_, hnone⟩
      rw [(lengthBytes_set hnone).1] at hbound
      exact hbound
    obtain ⟨k, hk, hbyte⟩ := lengthBytes_clear hj hclear
    exact read7BitLoopT_inside hk (hbyte _) fuel (Nat.zero_le k) 0#32

end Reads

/-! ## The whole packet -/

private theorem overlong_iff {body : Bytes} {beyond : Beyond} (r : BinaryStreamReader)
    (hr : r = ⟨body, beyond, 14⟩) :
    (r.cur + 5 ≤ r.data.length ∧ ∀ j, j < 5 → r.byteAt (r.cur + j) &&& 0x80 ≠ 0) ↔
      Overlong body := by
  subst hr
  refine and_congr_right fun hlen => ?_
  have hbyte : ∀ i, i < 19 →
      (⟨body, beyond, 14⟩ : BinaryStreamReader).byteAt i = body.getD i 0 := by
    intro i hi
    have hin : i < body.length := Nat.lt_of_lt_of_le hi hlen
    simp only [BinaryStreamReader.byteAt, List.getD_eq_getElem?_getD,
      List.getElem?_eq_getElem hin, Option.getD_some]
  constructor
  · intro h i hlow hhigh
    have hset := h (i - 14) (by omega)
    dsimp only at hset
    rw [show 14 + (i - 14) = i by omega, hbyte i hhigh] at hset
    exact hset
  · intro h j hj
    dsimp only
    rw [hbyte (14 + j) (by omega)]
    exact h (14 + j) (by omega) (by omega)

/-- Over every body and whatever lies around it: the decoder stays inside the packet, the array
and the width of a shift exactly when the length is not five bytes with the top bit set. -/
theorem decoder_inside_iff (body : Bytes) (after stack : Nat → UInt8) (overrun : BitVec 32) :
    (∀ fuel, (readPacketT stack fuel (cStr after overrun) body).All (Access.Inside body)) ↔
      ¬ Overlong body := by
  let reader (cur : Nat) : BinaryStreamReader := ⟨body, cStr after overrun, cur⟩
  have hcmd : (readInt32T (reader 6)).All (Access.Inside body) := readInt32T_inside (reader 6)
  have hseq : (readInt32T (reader 10)).All (Access.Inside body) := readInt32T_inside (reader 10)
  have hpacket : ∀ fuel, readPacketT stack fuel (cStr after overrun) body =
      (readInt32T (reader 6)).bind _ := fun fuel => rfl
  have hlonger : Overlong body → 19 ≤ body.length := fun h => h.1
  by_cases hten : body.length < 10
  · refine iff_of_true (fun fuel => ?_) fun h => by have := hlonger h; omega
    rw [hpacket, Traced.all_bind, readInt32T_value, readInt32_short (r := reader 6) hten]
    exact ⟨hcmd, Traced.all_pure _ _⟩
  · have hfirst := (readInt32T_value (reader 6)).trans (readInt32_long (r := reader 6) hten)
    by_cases hfourteen : body.length < 14
    · have hsecond := (readInt32T_value (reader 10)).trans (readInt32_short hfourteen)
      refine iff_of_true (fun fuel => ?_) fun h => by have := hlonger h; omega
      rw [hpacket, Traced.all_bind, hfirst, and_iff_right hcmd, Traced.all_bind]
      refine ⟨hseq, ?_⟩
      rw [hsecond]
      exact Traced.all_pure _ _
    · have hsecond := (readInt32T_value (reader 10)).trans (readInt32_long hfourteen)
      have hdata : ∀ fuel, (readPacketT stack fuel (cStr after overrun) body).All
          (Access.Inside body) ↔
            (readLengthWithoutOffsetT stack fuel (reader 14)).All (Access.Inside body) := by
        intro fuel
        rw [hpacket, Traced.all_bind, hfirst, and_iff_right hcmd, Traced.all_bind,
          and_iff_right hseq, hsecond]
        exact readStringT_inside stack fuel (reader 14) 0
      simp only [hdata]
      rw [← overlong_iff (reader 14) rfl]
      exact readLengthWithoutOffsetT_inside_iff (r := reader 14) rfl (Nat.not_lt.mp hfourteen) stack

/-- The five bytes of the longest length, all with the top bit set. -/
def overlongBody : Bytes := List.replicate 14 0 ++ List.replicate 5 128

/-- A packet whose length never ends: `read7BitEncoded` reads past its array and shifts by 35. -/
theorem decoder_leaves_array :
    Access.array 5 ∈ (readPacketT (fun _ => 0) 6 (cStr (fun _ => 0) 0) overlongBody).accesses ∧
      Access.shift 35 ∈
        (readPacketT (fun _ => 0) 6 (cStr (fun _ => 0) 0) overlongBody).accesses ∧
      ¬ ∀ fuel, (readPacketT (fun _ => 0) fuel (cStr (fun _ => 0) 0) overlongBody).All
        (Access.Inside overlongBody) := by
  have harray : Access.array 5 ∈
      (readPacketT (fun _ => 0) 6 (cStr (fun _ => 0) 0) overlongBody).accesses := by
    decide +kernel
  refine ⟨harray, by decide +kernel, fun h => ?_⟩
  exact absurd (h 6 _ harray) (Nat.lt_irrefl 5)

/-! ## The same answers -/

private theorem read7BitLoopT_value {memory : Nat → UInt8} {buf : Bytes} {fuel index bitCount : Nat}
    {value v : BitVec 32} (hmemory : ∀ i, i < buf.length → memory (index + i) = buf.getD i 0)
    (hfuel : buf.length ≤ fuel) (h : read7BitLoop buf bitCount value = some v) :
    (read7BitLoopT memory fuel index bitCount value).value = some v := by
  induction buf generalizing fuel index bitCount value with
  | nil => cases h
  | cons c rest ih =>
    obtain ⟨fuel, rfl⟩ := Nat.exists_eq_succ_of_ne_zero (n := fuel) (by
      rw [List.length_cons] at hfuel
      omega)
    have hfirst : memory index = c := hmemory 0 (Nat.succ_pos _)
    simp only [read7BitLoop] at h
    simp only [read7BitLoopT, Traced.bind_value, hfirst]
    split
    · next hclear =>
      rw [if_pos hclear] at h
      exact h
    · next hset =>
      rw [if_neg hset] at h
      refine ih (fun i hi => ?_) (Nat.le_of_succ_le_succ hfuel) h
      rw [Nat.add_assoc, Nat.add_comm 1 i]
      exact hmemory (i + 1) (Nat.succ_lt_succ hi)

private theorem length_lengthBytes_le (r : BinaryStreamReader) (fuel i : Nat) :
    (r.lengthBytes fuel i).length ≤ fuel := by
  induction fuel generalizing i with
  | zero => exact Nat.le_refl _
  | succ fuel ih =>
    simp only [BinaryStreamReader.lengthBytes]
    split
    · exact Nat.succ_le_succ (Nat.zero_le fuel)
    · exact Nat.succ_le_succ (ih (i + 1))

private theorem lengthBytes_overrun (body : Bytes) (past : Nat → UInt8) (x y : BitVec 32)
    (cur : Nat)
    (fuel i : Nat) :
    (⟨body, ⟨past, x⟩, cur⟩ : BinaryStreamReader).lengthBytes fuel i =
      (⟨body, ⟨past, y⟩, cur⟩ : BinaryStreamReader).lengthBytes fuel i := by
  induction fuel generalizing i with
  | zero => rfl
  | succ fuel ih =>
    simp only [BinaryStreamReader.lengthBytes, ih]
    rfl

/-- With a turn for each byte of the array, the answer is one of those of `readString`. -/
theorem readStringT_value {fuel : Nat} (hfuel : 5 ≤ fuel) (stack : Nat → UInt8) (body : Bytes)
    (past : Nat → UInt8) (overrun : BitVec 32) (cur maxlen : Nat) :
    ∃ made, (readStringT stack fuel ⟨body, ⟨past, overrun⟩, cur⟩ maxlen).value.2 =
      ((⟨body, ⟨past, made⟩, cur⟩ : BinaryStreamReader).readString maxlen).2 := by
  let r : BinaryStreamReader := ⟨body, ⟨past, overrun⟩, cur⟩
  let made := ((read7BitEncodedT stack fuel (r.lengthBytes 5 cur)).value).getD overrun
  have hbuf := lengthBytes_overrun body past made overrun cur 5 cur
  have hvalue : ((read7BitEncodedT stack fuel (r.lengthBytes 5 cur)).value).getD overrun =
      (read7BitEncoded (r.lengthBytes 5 cur)).getD made := by
    cases hread : read7BitEncoded (w := 32) (r.lengthBytes 5 cur) with
    | none => rfl
    | some v =>
      have hsame := @read7BitLoopT_value
        (fun i => (r.lengthBytes 5 cur).getD i (stack (i - (r.lengthBytes 5 cur).length)))
        (r.lengthBytes 5 cur) fuel 0 0 0#32 v (fun i hi => by
          rw [Nat.zero_add, List.getD_eq_getElem?_getD, List.getD_eq_getElem?_getD,
            List.getElem?_eq_getElem hi, Option.getD_some, Option.getD_some])
        (Nat.le_trans (length_lengthBytes_le r 5 cur) hfuel) hread
      rw [read7BitEncodedT, hsame]
      rfl
  have hlength : (readLengthWithoutOffsetT stack fuel r).value =
      (⟨body, ⟨past, made⟩, cur⟩ : BinaryStreamReader).readLengthWithoutOffset := by
    simp only [readLengthWithoutOffsetT, BinaryStreamReader.readLengthWithoutOffset,
      Traced.bind_value, lengthBytesT_value, hbuf]
    split
    · rfl
    · rw [Traced.map_value, hvalue]
  refine ⟨made, ?_⟩
  rw [readStringT, Traced.bind_value, hlength, BinaryStreamReader.readString]
  cases (⟨body, ⟨past, made⟩, cur⟩ : BinaryStreamReader).readLengthWithoutOffset with
  | none => rfl
  | some lens =>
    dsimp only
    split
    · rfl
    · split <;> rfl

/-- The recording reader decodes every body as `readPacket` does. -/
theorem readPacketT_value {fuel : Nat} (hfuel : 5 ≤ fuel) (stack after : Nat → UInt8)
    (overrun : BitVec 32) (body : Bytes) :
    ∃ made, (readPacketT stack fuel (cStr after overrun) body).value =
      readPacket (cStr after made) body := by
  obtain ⟨made, hdata⟩ := readStringT_value hfuel stack body (cStr after overrun).past overrun 14 0
  refine ⟨made, ?_⟩
  have hdecoded : ∀ cmd seq : BitVec 32,
      (match (readStringT stack fuel ⟨body, cStr after overrun, 14⟩ 0).value with
        | (_, none) => none
        | (_, some data) => some (⟨cmd, seq, data⟩ : Packet)) =
      match (⟨body, cStr after made, 14⟩ : BinaryStreamReader).readString 0 with
        | (_, none) => none
        | (_, some data) => some (⟨cmd, seq, data⟩ : Packet) := by
    intro cmd seq
    have hsame : (readStringT stack fuel ⟨body, cStr after overrun, 14⟩ 0).value.2 =
        ((⟨body, cStr after made, 14⟩ : BinaryStreamReader).readString 0).2 := hdata
    generalize (readStringT stack fuel ⟨body, cStr after overrun, 14⟩ 0).value = x at hsame
    generalize (⟨body, cStr after made, 14⟩ : BinaryStreamReader).readString 0 = y at hsame
    obtain ⟨r, data⟩ := x
    obtain ⟨r', data'⟩ := y
    cases hsame
    cases data <;> rfl
  rw [readPacketT, readPacket, Traced.bind_value, readInt32T_value]
  by_cases hten : body.length < 10
  · rw [readInt32_short (r := .new body (cStr after overrun)) hten,
      readInt32_short (r := .new body (cStr after made)) hten]
    rfl
  · rw [readInt32_long (r := .new body (cStr after overrun)) hten,
      readInt32_long (r := .new body (cStr after made)) hten]
    dsimp only
    rw [Traced.bind_value, readInt32T_value]
    by_cases hfourteen : body.length < 14
    · rw [readInt32_short hfourteen, readInt32_short hfourteen]
      rfl
    · rw [readInt32_long hfourteen, readInt32_long hfourteen]
      exact hdecoded _ _

end ChatRoom.Chat
