import ChatRoom.Core.Utf8
import ChatRoom.Chat.ChatServer

/-!
# The serializer

`dump` of the JSON library, as `json::dump()` calls it: on one line, with no escapes for
characters beyond ASCII, and with an exception for a string that is not UTF-8. Strings are
decoded byte by byte with a table and written through a buffer that is flushed before it can
overflow; integers are written into a buffer from its end. How a finite floating-point number is
printed is a parameter.
-/

namespace ChatRoom.Nlohmann

open ChatRoom.Core Chat

/-! ## Strings -/

/-- `UTF8_ACCEPT`. -/
def utf8Accept : Nat := 0

/-- `UTF8_REJECT`. -/
def utf8Reject : Nat := 1

/-- The class of each byte, and from place 256 on the transitions of each state. -/
def utf8d : List Nat := [
  0, 0, 0, 0, 0, 0, 0, 0, 0, 0, 0, 0, 0, 0, 0, 0, 0, 0, 0, 0, 0, 0, 0, 0, 0, 0, 0, 0, 0, 0, 0, 0,
  0, 0, 0, 0, 0, 0, 0, 0, 0, 0, 0, 0, 0, 0, 0, 0, 0, 0, 0, 0, 0, 0, 0, 0, 0, 0, 0, 0, 0, 0, 0, 0,
  0, 0, 0, 0, 0, 0, 0, 0, 0, 0, 0, 0, 0, 0, 0, 0, 0, 0, 0, 0, 0, 0, 0, 0, 0, 0, 0, 0, 0, 0, 0, 0,
  0, 0, 0, 0, 0, 0, 0, 0, 0, 0, 0, 0, 0, 0, 0, 0, 0, 0, 0, 0, 0, 0, 0, 0, 0, 0, 0, 0, 0, 0, 0, 0,
  1, 1, 1, 1, 1, 1, 1, 1, 1, 1, 1, 1, 1, 1, 1, 1, 9, 9, 9, 9, 9, 9, 9, 9, 9, 9, 9, 9, 9, 9, 9, 9,
  7, 7, 7, 7, 7, 7, 7, 7, 7, 7, 7, 7, 7, 7, 7, 7, 7, 7, 7, 7, 7, 7, 7, 7, 7, 7, 7, 7, 7, 7, 7, 7,
  8, 8, 2, 2, 2, 2, 2, 2, 2, 2, 2, 2, 2, 2, 2, 2, 2, 2, 2, 2, 2, 2, 2, 2, 2, 2, 2, 2, 2, 2, 2, 2,
  10, 3, 3, 3, 3, 3, 3, 3, 3, 3, 3, 3, 3, 4, 3, 3, 11, 6, 6, 6, 5, 8, 8, 8, 8, 8, 8, 8, 8, 8, 8, 8,
  0, 1, 2, 3, 5, 8, 7, 1, 1, 1, 4, 6, 1, 1, 1, 1, 1, 1, 1, 1, 1, 1, 1, 1, 1, 1, 1, 1, 1, 1, 1, 1,
  1, 0, 1, 1, 1, 1, 1, 0, 1, 0, 1, 1, 1, 1, 1, 1, 1, 2, 1, 1, 1, 1, 1, 2, 1, 2, 1, 1, 1, 1, 1, 1,
  1, 1, 1, 1, 1, 1, 1, 2, 1, 1, 1, 1, 1, 1, 1, 1, 1, 2, 1, 1, 1, 1, 1, 1, 1, 2, 1, 1, 1, 1, 1, 1,
  1, 1, 1, 1, 1, 1, 1, 3, 1, 3, 1, 1, 1, 1, 1, 1, 1, 3, 1, 1, 1, 1, 1, 3, 1, 3, 1, 1, 1, 1, 1, 1,
  1, 3, 1, 1, 1, 1, 1, 1, 1, 1, 1, 1, 1, 1, 1, 1]

/-- The next state and the code of the character so far. -/
def decode (state codep : Nat) (byte : UInt8) : Nat × Nat :=
  let type := utf8d.getD byte.toNat utf8Reject
  let codep := if state ≠ utf8Accept then (byte.toNat &&& 0x3F) ||| (codep <<< 6 % 2 ^ 32)
    else (0xFF >>> type) &&& byte.toNat
  (utf8d.getD (256 + state * 16 + type) utf8Reject, codep)

/-- `"\\u%04x"`. -/
def unicodeEscape (code : Nat) : Bytes :=
  [92, 117, hexChar (code / 4096 % 16), hexChar (code / 256 % 16), hexChar (code / 16 % 16),
    hexChar (code % 16)]

/-- The variables of `dump_escaped`, with every index of `string_buffer` that has been written or
read, in order. -/
structure Escaper where
  state : Nat
  codepoint : Nat
  stringBuffer : Bytes
  bytes : BitVec 64
  output : Bytes
  accesses : List Nat
  deriving DecidableEq, Repr

namespace Escaper

/-- The size of `string_buffer`. -/
def bufferSize : Nat := 512

/-- Before the first byte; the array still holds what an earlier string has left. -/
def start (stringBuffer : Bytes) : Escaper := ⟨utf8Accept, 0, stringBuffer, 0, [], []⟩

/-- `string_buffer[bytes++] = c`. A write outside of the array is listed and changes nothing. -/
def put (s : Escaper) (c : UInt8) : Escaper :=
  { s with
    stringBuffer := s.stringBuffer.set s.bytes.toNat c
    bytes := s.bytes + 1
    accesses := s.accesses ++ [s.bytes.toNat] }

/-- `snprintf` at `string_buffer.data() + bytes`: the text and a zero, which `bytes` leaves out. -/
def print (s : Escaper) (text : Bytes) : Escaper :=
  { (text ++ [0]).foldl put s with bytes := s.bytes + BitVec.ofNat 64 text.length }

/-- The switch on a complete character; `byte` is the last one of it. -/
def putCodepoint (s : Escaper) (byte : UInt8) : Escaper :=
  if s.codepoint = 0x08 then (s.put 92).put 98
  else if s.codepoint = 0x09 then (s.put 92).put 116
  else if s.codepoint = 0x0A then (s.put 92).put 110
  else if s.codepoint = 0x0C then (s.put 92).put 102
  else if s.codepoint = 0x0D then (s.put 92).put 114
  else if s.codepoint = 0x22 then (s.put 92).put 34
  else if s.codepoint = 0x5C then (s.put 92).put 92
  else if s.codepoint ≤ 0x1F then s.print (unicodeEscape s.codepoint)
  else s.put byte

/-- `write_characters(string_buffer.data(), bytes)`. -/
def writeCharacters (s : Escaper) : Escaper :=
  { s with
    output := s.output ++ s.stringBuffer.take s.bytes.toNat
    accesses := s.accesses ++ List.range s.bytes.toNat }

/-- Write the buffer out when the longest escape might not fit any more. -/
def flush (s : Escaper) : Escaper :=
  if BitVec.ofNat 64 bufferSize - s.bytes < 13 then { s.writeCharacters with bytes := 0 } else s

/-- One byte of the string. -/
def next (s : Escaper) (byte : UInt8) : Option Escaper :=
  let decoded := decode s.state s.codepoint byte
  let s := { s with state := decoded.1, codepoint := decoded.2 }
  if s.state = utf8Accept then some (s.putCodepoint byte).flush
  else if s.state = utf8Reject then none
  else some (s.put byte)

/-- What is left in the buffer is written at the end. -/
def finish (s : Escaper) : Escaper := if 0 < s.bytes then s.writeCharacters else s

end Escaper

/-- `dump_escaped` with the array that earlier strings have left behind. -/
def dumpEscapedFrom (stringBuffer s : Bytes) : Option Bytes :=
  (s.foldlM Escaper.next (Escaper.start stringBuffer)).bind fun s =>
    if s.state = utf8Accept then some s.finish.output else none

/-- `dump_escaped` with the array as the serializer is made; it makes no difference, by
`dumpEscapedFrom_eq`. -/
def dumpEscaped (s : Bytes) : Option Bytes :=
  dumpEscapedFrom (List.replicate Escaper.bufferSize 0) s

/-! ## Numbers -/

/-- `count_digits`: four digits in each turn. -/
def countDigits (x : Nat) : Nat :=
  if x < 10 then 1
  else if x < 100 then 2
  else if x < 1000 then 3
  else if x < 10000 then 4
  else countDigits (x / 10000) + 4

/-- `*(--buffer_ptr) = c`. -/
def putBack (b : Bytes × Nat) (c : UInt8) : Bytes × Nat := (b.1.set (b.2 - 1) c, b.2 - 1)

/-- The two digits of `digits_to_99`, the last one first. -/
def putPair (b : Bytes × Nat) (n : Nat) : Bytes × Nat :=
  putBack (putBack b (UInt8.ofNat (48 + n % 10))) (UInt8.ofNat (48 + n / 10))

/-- The digits of `abs_value` in front of `buffer_ptr`. -/
def fillDigits (absValue : Nat) (b : Bytes × Nat) : Bytes × Nat :=
  if 100 ≤ absValue then fillDigits (absValue / 100) (putPair b (absValue % 100))
  else if 10 ≤ absValue then putPair b absValue
  else putBack b (UInt8.ofNat (48 + absValue))

/-- `number_buffer` of the serializer. -/
def numberBuffer : Bytes := List.replicate 64 0

/-- `dump_integer`: the digits are written into a buffer from its end. -/
def dumpInteger (x : Int) : Bytes :=
  if x = 0 then [48]
  else if x < 0 then
    let nChars := 1 + countDigits x.natAbs
    (fillDigits x.natAbs (numberBuffer.set 0 45, nChars)).1.take nChars
  else
    let nChars := countDigits x.natAbs
    (fillDigits x.natAbs (numberBuffer, nChars)).1.take nChars

/-- `std::isfinite`. -/
def isfinite (x : BitVec 64) : Bool := x.toNat / 2 ^ 52 % 2 ^ 11 ≠ 2 ^ 11 - 1

/-- `dump_float`: a number that is not finite is printed as `null`. -/
def dumpFloat (toChars : BitVec 64 → Bytes) (x : BitVec 64) : Bytes :=
  if isfinite x then toChars x else [110, 117, 108, 108]

/-! ## Values -/

mutual

/-- `dump` on one line; `none` is the exception for a string that is not UTF-8. -/
def dump (toChars : BitVec 64 → Bytes) : Json → Option Bytes
  | .null => some [110, 117, 108, 108]
  | .boolean b => some (if b then [116, 114, 117, 101] else [102, 97, 108, 115, 101])
  | .numberInteger n => some (dumpInteger n)
  | .numberFloat x => some (dumpFloat toChars x)
  | .string s => (dumpEscaped s).map fun t => [34] ++ t ++ [34]
  | .array elements => (dumpElements toChars elements).map fun t => [91] ++ t ++ [93]
  | .object members => (dumpMembers toChars members).map fun t => [123] ++ t ++ [125]

/-- The elements of an array with commas between them. -/
def dumpElements (toChars : BitVec 64 → Bytes) : List Json → Option Bytes
  | [] => some []
  | e :: rest =>
    match rest with
    | [] => dump toChars e
    | _ :: _ => do return (← dump toChars e) ++ [44] ++ (← dumpElements toChars rest)

/-- The members of an object with commas between them. -/
def dumpMembers (toChars : BitVec 64 → Bytes) : List (Bytes × Json) → Option Bytes
  | [] => some []
  | (key, v) :: rest => do
    let key ← dumpEscaped key
    let value ← dump toChars v
    let member := [34] ++ key ++ [34, 58] ++ value
    match rest with
    | [] => return member
    | _ :: _ => return member ++ [44] ++ (← dumpMembers toChars rest)

end

/-! ## The decoder -/

/-- What a state of the decoder owes to the character it is in. -/
def owed : Nat → Option (List (UInt8 × UInt8))
  | 0 => some []
  | 2 => some [Utf8.tail]
  | 3 => some [Utf8.tail, Utf8.tail]
  | 4 => some [(0xA0, 0xBF), Utf8.tail]
  | 5 => some [(0x80, 0x9F), Utf8.tail]
  | 6 => some [(0x90, 0xBF), Utf8.tail, Utf8.tail]
  | 7 => some [Utf8.tail, Utf8.tail, Utf8.tail]
  | 8 => some [(0x80, 0x8F), Utf8.tail, Utf8.tail]
  | _ => none

/-- The least code in each state, so that no code of several bytes is that of an ASCII character;
after `0xE0` and `0xF0` the next byte sees to it. -/
def leastCode : Nat → Nat
  | 2 => 2
  | 3 => 1
  | 5 => 1
  | 7 => 1
  | 8 => 1
  | _ => 0

/-- A transition of the table is right. -/
def tableRight (state : Nat) (byte : UInt8) : Bool :=
  let type := utf8d.getD byte.toNat utf8Reject
  let state' := utf8d.getD (256 + state * 16 + type) utf8Reject
  match owed state with
  | none => true
  | some [] =>
    match Utf8.trails byte with
    | some [] => state' = 0 ∧ (0xFF >>> type) &&& byte.toNat = byte.toNat
    | some rest => owed state' = some rest ∧ leastCode state' ≤ (0xFF >>> type) &&& byte.toNat
    | none => state' = 1
  | some (r :: rest) =>
    if Utf8.within r byte then
      owed state' = some rest ∧ leastCode state' ≤ leastCode state * 64 + (byte.toNat &&& 0x3F)
    else state' = 1

private theorem tableRight_all :
    ∀ state < 9, ∀ byte : Fin 256, tableRight state (UInt8.ofNat byte) = true := by
  decide +kernel

private theorem tableRight_of_owed {state : Nat} {os : List (UInt8 × UInt8)}
    (h : owed state = some os)
    (byte : UInt8) : tableRight state byte = true := by
  have hstate : state < 9 := by
    by_contra hge
    rw [owed] at h
    · cases h
    all_goals omega
  have hbyte := tableRight_all state hstate ⟨byte.toNat, byte.toNat_lt⟩
  rwa [UInt8.ofNat_toNat] at hbyte

private theorem eq_zero_of_owed_nil {state : Nat} (h : owed state = some []) : state = 0 := by
  unfold owed at h
  split at h <;> simp_all

private theorem length_owed_le {state : Nat} {os : List (UInt8 × UInt8)}
    (h : owed state = some os) :
    os.length ≤ 3 := by
  unfold owed at h
  split at h <;> cases h <;> decide

/-- What is known in the middle of a text: the code has as many bits as are left for it. -/
structure Decodes (os : List (UInt8 × UInt8)) (state codep : Nat) : Prop where
  owed : owed state = some os
  least : os ≠ [] → leastCode state ≤ codep
  bits : os ≠ [] → codep < 2 ^ (32 - 6 * os.length)

private theorem Decodes.ne_reject {os : List (UInt8 × UInt8)} {state codep : Nat}
    (h : Decodes os state codep) : state ≠ utf8Reject := by
  rintro rfl
  cases h.owed

private theorem Decodes.eq_accept_iff {os : List (UInt8 × UInt8)} {state codep : Nat}
    (h : Decodes os state codep) : state = utf8Accept ↔ os = [] := by
  constructor
  · rintro rfl
    cases h.owed
    rfl
  · rintro rfl
    exact eq_zero_of_owed_nil h.owed

section Decode

variable {byte : UInt8} {state codep : Nat} {r : UInt8 × UInt8} {os : List (UInt8 × UInt8)}

/-- A byte that is a character of its own. -/
theorem decode_ascii (h : Decodes [] state codep) (htrails : Utf8.trails byte = some []) :
    decode state codep byte = (utf8Accept, byte.toNat) := by
  obtain rfl := eq_zero_of_owed_nil h.owed
  have htable := tableRight_of_owed h.owed byte
  rw [tableRight, h.owed] at htable
  simp only [htrails, decide_eq_true_eq] at htable
  exact Prod.ext htable.1 htable.2

/-- A byte that starts a longer character. -/
theorem decode_lead (h : Decodes [] state codep) (htrails : Utf8.trails byte = some (r :: os)) :
    Decodes (r :: os) (decode state codep byte).1 (decode state codep byte).2 := by
  obtain rfl := eq_zero_of_owed_nil h.owed
  have htable := tableRight_of_owed h.owed byte
  rw [tableRight, h.owed] at htable
  simp only [htrails, decide_eq_true_eq] at htable
  refine ⟨htable.1, fun _ => htable.2, fun _ => ?_⟩
  have hlen := length_owed_le htable.1
  have hle : (2 : Nat) ^ 8 ≤ 2 ^ (32 - 6 * (r :: os).length) :=
    Nat.pow_le_pow_right (by decide) (by omega)
  have hbyte : (0xFF >>> utf8d.getD byte.toNat utf8Reject) &&& byte.toNat < 2 ^ 8 :=
    Nat.lt_of_le_of_lt Nat.and_le_right byte.toNat_lt
  exact Nat.lt_of_lt_of_le hbyte hle

private theorem decode_refused (h : Decodes [] state codep) (htrails : Utf8.trails byte = none) :
    (decode state codep byte).1 = utf8Reject := by
  obtain rfl := eq_zero_of_owed_nil h.owed
  have htable := tableRight_of_owed h.owed byte
  rw [tableRight, h.owed] at htable
  simp only [htrails, decide_eq_true_eq] at htable
  exact htable

/-- The code in the middle of a character does not wrap around. -/
theorem decode_code (h : Decodes (r :: os) state codep) (byte : UInt8) :
    leastCode state * 64 + (byte.toNat &&& 0x3F) ≤ (decode state codep byte).2 ∧
      (decode state codep byte).2 < 2 ^ (32 - 6 * os.length) := by
  have hstate : state ≠ utf8Accept := fun hzero => nomatch h.eq_accept_iff.mp hzero
  have hleast := h.least (List.cons_ne_nil _ _)
  have hbits := h.bits (List.cons_ne_nil _ _)
  have hlen := length_owed_le h.owed
  rw [List.length_cons] at hbits hlen
  have hpow : (2 : Nat) ^ (32 - 6 * os.length) = 2 ^ (32 - 6 * (os.length + 1)) * 64 := by
    rw [show 32 - 6 * os.length = 32 - 6 * (os.length + 1) + 6 by omega, Nat.pow_add]
  have hmost : (2 : Nat) ^ (32 - 6 * os.length) ≤ 2 ^ 32 :=
    Nat.pow_le_pow_right (by decide) (by omega)
  have hshift : codep <<< 6 % 2 ^ 32 = codep <<< 6 := by
    rw [Nat.mod_eq_of_lt]
    rw [Nat.shiftLeft_eq]
    omega
  have hsix : byte.toNat &&& 0x3F < 2 ^ 6 := Nat.and_lt_two_pow _ (by decide)
  have hadd : (byte.toNat &&& 0x3F) ||| (codep <<< 6) = codep * 64 + (byte.toNat &&& 0x3F) := by
    rw [Nat.or_comm, ← Nat.shiftLeft_add_eq_or_of_lt hsix, Nat.shiftLeft_eq]
  rw [decode]
  simp only [if_pos hstate, hshift, hadd]
  omega

/-- A later byte in its interval goes on with the character. -/
theorem decode_later (h : Decodes (r :: os) state codep) (hwithin : Utf8.within r byte = true) :
    Decodes os (decode state codep byte).1 (decode state codep byte).2 := by
  have htable := tableRight_of_owed h.owed byte
  rw [tableRight, h.owed] at htable
  simp only [hwithin, if_true, decide_eq_true_eq] at htable
  have hcode := decode_code h byte
  exact ⟨htable.1, fun _ => Nat.le_trans htable.2 hcode.1, fun _ => hcode.2⟩

private theorem decode_later_refused (h : Decodes (r :: os) state codep)
    (hwithin : Utf8.within r byte = false) : (decode state codep byte).1 = utf8Reject := by
  have htable := tableRight_of_owed h.owed byte
  rw [tableRight, h.owed] at htable
  simp only [hwithin, Bool.false_eq_true, if_false, decide_eq_true_eq] at htable
  exact htable

/-- The code of a character of several bytes is not an ASCII code. -/
theorem decode_last (h : Decodes [r] state codep) : 0x80 ≤ (decode state codep byte).2 := by
  have hcode := (decode_code h byte).1
  have htwo : leastCode state = 2 := by
    have howed := h.owed
    unfold owed at howed
    split at howed <;> cases howed
    rfl
  omega

end Decode

/-! ## Escaped strings -/

/-- The escaped form of a complete character; `byte` is the last one of it. -/
def escapeCodepoint (codepoint : Nat) (byte : UInt8) : Bytes :=
  if codepoint = 0x08 then [92, 98]
  else if codepoint = 0x09 then [92, 116]
  else if codepoint = 0x0A then [92, 110]
  else if codepoint = 0x0C then [92, 102]
  else if codepoint = 0x0D then [92, 114]
  else if codepoint = 0x22 then [92, 34]
  else if codepoint = 0x5C then [92, 92]
  else if codepoint ≤ 0x1F then unicodeEscape codepoint
  else [byte]

/-- How a byte of a UTF-8 text is written. -/
def escapeByte (byte : UInt8) : Bytes := escapeCodepoint byte.toNat byte

private theorem escapeCodepoint_of_le {codepoint : Nat} (h : 0x80 ≤ codepoint) (byte : UInt8) :
    escapeCodepoint codepoint byte = [byte] := by
  rw [escapeCodepoint, if_neg (by omega), if_neg (by omega), if_neg (by omega), if_neg (by omega),
    if_neg (by omega), if_neg (by omega), if_neg (by omega), if_neg (by omega)]

private theorem length_escapeCodepoint_le (codepoint : Nat) (byte : UInt8) :
    (escapeCodepoint codepoint byte).length ≤ 6 := by
  rw [escapeCodepoint]
  split_ifs <;> exact Nat.le_of_ble_eq_true rfl

namespace Escaper

variable {s s' s'' : Escaper} {text text' : Bytes}

/-- What stands in `string_buffer` and has not been flushed. -/
def buffer (s : Escaper) : Bytes := s.stringBuffer.take s.bytes.toNat

/-- All that has been written, flushed or not. -/
def written (s : Escaper) : Bytes := s.output ++ s.buffer

/-- All indices that have been used are inside the array, which has kept its size. -/
structure InBuffer (s : Escaper) : Prop where
  size : s.stringBuffer.length = bufferSize
  inside : ∀ i ∈ s.accesses, i < bufferSize

/-- The text has been put into the buffer, inside the array. -/
structure Appends (s s' : Escaper) (text : Bytes) : Prop where
  inBuffer : s'.InBuffer
  buffer : s'.buffer = s.buffer ++ text
  bytes : s'.bytes.toNat = s.bytes.toNat + text.length
  output : s'.output = s.output
  state : s'.state = s.state
  codepoint : s'.codepoint = s.codepoint

/-- Two texts are put into the buffer one after the other. -/
theorem Appends.trans (h : Appends s s' text) (h' : Appends s' s'' text') :
    Appends s s'' (text ++ text') where
  inBuffer := h'.inBuffer
  buffer := by rw [h'.buffer, h.buffer, List.append_assoc]
  bytes := by rw [h'.bytes, h.bytes, List.length_append, Nat.add_assoc]
  output := h'.output.trans h.output
  state := h'.state.trans h.state
  codepoint := h'.codepoint.trans h.codepoint

private theorem toNat_add_ofNat {b : BitVec 64} {n : Nat} (h : b.toNat + n ≤ bufferSize) :
    (b + BitVec.ofNat 64 n).toNat = b.toNat + n := by
  rw [bufferSize] at h
  rw [BitVec.toNat_add, BitVec.toNat_ofNat]
  omega

private theorem put_appends (h : s.InBuffer) (hroom : s.bytes.toNat < bufferSize) (c : UInt8) :
    Appends s (s.put c) [c] where
  inBuffer := by
    refine ⟨(List.length_set ..).trans h.size, fun i hi => ?_⟩
    rcases List.mem_append.mp hi with hi | hi
    · exact h.inside i hi
    · rw [List.mem_singleton.mp hi]
      exact hroom
  buffer := by
    have hinside : s.bytes.toNat < (s.stringBuffer.set s.bytes.toNat c).length := by
      rw [List.length_set, h.size]
      exact hroom
    have hbytes : (s.put c).bytes.toNat = s.bytes.toNat + 1 := toNat_add_ofNat hroom
    have hfront : (s.stringBuffer.take s.bytes.toNat).length ≤ s.bytes.toNat := by
      rw [List.length_take]
      exact Nat.min_le_left _ _
    rw [buffer, hbytes]
    change (s.stringBuffer.set s.bytes.toNat c).take (s.bytes.toNat + 1) = _
    rw [List.take_succ_eq_append_getElem hinside, List.getElem_set_self, List.take_set,
      List.set_eq_of_length_le hfront, buffer]
  bytes := toNat_add_ofNat hroom
  output := rfl
  state := rfl
  codepoint := rfl

private theorem foldl_put_appends (h : s.InBuffer)
    (hroom : s.bytes.toNat + text.length ≤ bufferSize) :
    Appends s (text.foldl put s) text := by
  induction text generalizing s with
  | nil => exact ⟨h, (List.append_nil _).symm, rfl, rfl, rfl, rfl⟩
  | cons c text ih =>
    rw [List.length_cons] at hroom
    have hfirst := put_appends h (show s.bytes.toNat < bufferSize by omega) c
    have hrest := ih hfirst.inBuffer (by rw [hfirst.bytes, List.length_singleton]; omega)
    exact hfirst.trans hrest

/-- The zero at the end of what is printed is written too, but does not count. -/
theorem print_appends (h : s.InBuffer) (hroom : s.bytes.toNat + text.length < bufferSize) :
    Appends s (s.print text) text := by
  have htext := foldl_put_appends h (Nat.le_of_lt hroom)
  have hzero := put_appends htext.inBuffer (by rw [htext.bytes]; exact hroom) 0
  have hprint : s.print text = { (text.foldl put s).put 0 with
      bytes := s.bytes + BitVec.ofNat 64 text.length } := by
    rw [print, List.foldl_append, List.foldl_cons, List.foldl_nil]
  have hbytes := toNat_add_ofNat (b := s.bytes) (Nat.le_of_lt hroom)
  rw [hprint]
  refine ⟨⟨hzero.inBuffer.size, hzero.inBuffer.inside⟩, ?_, hbytes, hzero.output.trans htext.output,
    hzero.state.trans htext.state, hzero.codepoint.trans htext.codepoint⟩
  have hfront := congrArg (List.take (text.foldl put s).bytes.toNat) hzero.buffer
  have hlen : (text.foldl put s).buffer.length = (text.foldl put s).bytes.toNat := by
    rw [buffer, List.length_take, htext.inBuffer.size, htext.bytes]
    omega
  rw [buffer, hzero.bytes, List.take_take, Nat.min_eq_left (Nat.le_add_right _ _),
    List.take_append_of_le_length (Nat.le_of_eq hlen.symm), List.take_of_length_le
      (Nat.le_of_eq hlen), htext.buffer, htext.bytes] at hfront
  change ((text.foldl put s).put 0).stringBuffer.take
    (s.bytes + BitVec.ofNat 64 text.length).toNat = _
  rw [hbytes]
  exact hfront

/-- A complete character is put into the buffer in its escaped form. -/
theorem putCodepoint_appends (h : s.InBuffer) (hroom : s.bytes.toNat + 7 ≤ bufferSize)
    (byte : UInt8) : Appends s (s.putCodepoint byte) (escapeCodepoint s.codepoint byte) := by
  have htwo : ∀ c, Appends s ((s.put 92).put c) [92, c] := by
    intro c
    have hfirst := put_appends h (show s.bytes.toNat < bufferSize by omega) 92
    exact hfirst.trans (put_appends hfirst.inBuffer
      (by rw [hfirst.bytes, List.length_singleton]; omega) c)
  rw [putCodepoint, escapeCodepoint]
  split_ifs
  · exact htwo 98
  · exact htwo 116
  · exact htwo 110
  · exact htwo 102
  · exact htwo 114
  · exact htwo 34
  · exact htwo 92
  · exact print_appends h (show s.bytes.toNat + 6 < bufferSize by omega)
  · exact put_appends h (by omega) byte

private theorem writeCharacters_inBuffer (h : s.InBuffer) (hbytes : s.bytes.toNat ≤ bufferSize) :
    s.writeCharacters.InBuffer := by
  refine ⟨h.size, fun i hi => ?_⟩
  rcases List.mem_append.mp hi with hi | hi
  · exact h.inside i hi
  · exact Nat.lt_of_lt_of_le (List.mem_range.mp hi) hbytes

private theorem finish_inBuffer (h : s.InBuffer) (hbytes : s.bytes.toNat ≤ bufferSize) :
    s.finish.InBuffer := by
  rw [finish]
  split
  · exact writeCharacters_inBuffer h hbytes
  · exact h

private theorem output_finish (s : Escaper) : s.finish.output = s.written := by
  rw [finish]
  split
  · rfl
  · next hnone =>
    have hzero : s.bytes.toNat = 0 := Nat.eq_zero_of_not_pos hnone
    rw [written, buffer, hzero, List.take_zero, List.append_nil]

/-- After the flush there is room for the longest escape, and nothing is lost. -/
theorem flush_room (h : s.InBuffer) (hbytes : s.bytes.toNat ≤ bufferSize) :
    s.flush.InBuffer ∧ s.flush.written = s.written ∧ s.flush.bytes.toNat + 13 ≤ bufferSize ∧
      s.flush.state = s.state ∧ s.flush.codepoint = s.codepoint := by
  have hleft : (BitVec.ofNat 64 bufferSize - s.bytes).toNat = bufferSize - s.bytes.toNat := by
    rw [bufferSize] at hbytes ⊢
    rw [BitVec.toNat_sub, BitVec.toNat_ofNat]
    omega
  rw [flush]
  split
  · have hout := writeCharacters_inBuffer h hbytes
    have hthirteen : 0 + 13 ≤ bufferSize := by decide
    exact ⟨⟨hout.size, hout.inside⟩, List.append_nil _, hthirteen, rfl, rfl⟩
  · next hroom =>
    refine ⟨h, rfl, ?_, rfl, rfl⟩
    rw [BitVec.lt_def, hleft] at hroom
    change ¬ bufferSize - s.bytes.toNat < 13 at hroom
    rw [bufferSize] at hroom ⊢
    omega

end Escaper

/-- What is owed to the character in progress, and what is left in the buffer: the longest escape
with its terminating zero, after up to three bytes of a character. -/
structure Escapes (os : List (UInt8 × UInt8)) (s : Escaper) : Prop where
  decodes : Decodes os s.state s.codepoint
  room : s.bytes.toNat + 13 ≤ Escaper.bufferSize + if os = [] then 0 else 4 - os.length
  beyond : ∀ r ∈ os, 0x80 ≤ r.1
  inBuffer : s.InBuffer

private theorem Escapes.bytes_le {os : List (UInt8 × UInt8)} {s : Escaper} (h : Escapes os s) :
    s.bytes.toNat + 10 ≤ Escaper.bufferSize := by
  have hroom := h.room
  split at hroom
  · omega
  · next hne =>
    have hpos := List.length_pos_of_ne_nil hne
    omega

section Escape

variable {s : Escaper} {os os' : List (UInt8 × UInt8)} {byte : UInt8}

private theorem escapes_start {stringBuffer : Bytes}
    (h : stringBuffer.length = Escaper.bufferSize) :
    Escapes [] (Escaper.start stringBuffer) where
  decodes := ⟨rfl, fun hne => absurd rfl hne, fun hne => absurd rfl hne⟩
  room := by
    change 0 + 13 ≤ 512 + 0
    decide
  beyond := fun _ hr => absurd hr List.not_mem_nil
  inBuffer := ⟨h, fun _ hi => absurd hi List.not_mem_nil⟩

/-- A byte that completes a character. -/
theorem next_accept (h : Escapes os s) (hstate : (decode s.state s.codepoint byte).1 = utf8Accept)
    (hescape : escapeCodepoint (decode s.state s.codepoint byte).2 byte = escapeByte byte) :
    ∃ s', s.next byte = some s' ∧ Escapes [] s' ∧ s'.written = s.written ++ escapeByte byte := by
  have hroom := h.bytes_le
  have hput := Escaper.putCodepoint_appends
    (s := { s with
      state := (decode s.state s.codepoint byte).1
      codepoint := (decode s.state s.codepoint byte).2 })
    ⟨h.inBuffer.size, h.inBuffer.inside⟩
    (Nat.le_trans (Nat.add_le_add_left (show 7 ≤ 10 by decide) _) hroom) byte
  have hlen := length_escapeCodepoint_le (decode s.state s.codepoint byte).2 byte
  have hflush := Escaper.flush_room hput.inBuffer (by
    rw [hput.bytes]
    exact Nat.le_trans (Nat.add_le_add_left (Nat.le_trans hlen (show 6 ≤ 10 by decide)) _) hroom)
  obtain ⟨hin, hwritten, hbytes, hstate', -⟩ := hflush
  refine ⟨_, if_pos hstate, ⟨⟨?_, fun hne => absurd rfl hne, fun hne => absurd rfl hne⟩, hbytes,
    fun _ hr => absurd hr List.not_mem_nil, hin⟩, ?_⟩
  · rw [hstate', hput.state, hstate]
    rfl
  · rw [hwritten, Escaper.written, hput.output, hput.buffer, ← List.append_assoc, ← hescape]
    rfl

/-- A byte in the middle of a character. -/
theorem next_incomplete {r : UInt8 × UInt8} (h : Escapes os s)
    (hdecodes : Decodes (r :: os') (decode s.state s.codepoint byte).1
      (decode s.state s.codepoint byte).2)
    (hlen : os = [] ∨ os.length = os'.length + 2) (hbyte : 0x80 ≤ byte.toNat)
    (hbeyond : ∀ r' ∈ r :: os', 0x80 ≤ r'.1) :
    ∃ s', s.next byte = some s' ∧ Escapes (r :: os') s' ∧
      s'.written = s.written ++ escapeByte byte := by
  have haccept : (decode s.state s.codepoint byte).1 ≠ utf8Accept := fun hzero =>
    nomatch hdecodes.eq_accept_iff.mp hzero
  have hput := Escaper.put_appends
    (s := { s with
      state := (decode s.state s.codepoint byte).1
      codepoint := (decode s.state s.codepoint byte).2 })
    ⟨h.inBuffer.size, h.inBuffer.inside⟩
    (Nat.lt_of_lt_of_le (Nat.lt_add_of_pos_right (by decide)) h.bytes_le) byte
  refine ⟨_, (if_neg haccept).trans (if_neg hdecodes.ne_reject),
    ⟨hdecodes, ?_, hbeyond, hput.inBuffer⟩, ?_⟩
  · have hroom := h.room
    have hthree := length_owed_le hdecodes.owed
    rw [hput.bytes, if_neg (List.cons_ne_nil _ _), List.length_singleton]
    change s.bytes.toNat + 1 + 13 ≤ _
    rw [List.length_cons] at hthree ⊢
    rcases hlen with rfl | hlen
    · rw [if_pos rfl] at hroom
      omega
    · rw [if_neg (by rintro rfl; cases hlen)] at hroom
      omega
  · rw [Escaper.written, hput.output, hput.buffer, ← List.append_assoc, escapeByte,
      escapeCodepoint_of_le hbyte]
    rfl

private theorem le_of_within {r : UInt8 × UInt8} (hr : 0x80 ≤ r.1) (h : Utf8.within r byte = true) :
    0x80 ≤ byte.toNat := by
  have hlow := (Utf8.within_iff.mp h).1
  rw [UInt8.le_iff_toNat_le] at hr
  exact Nat.le_trans hr hlow

/-- A byte that may come next is written. -/
theorem next_some (h : Escapes os s) (hadvance : Utf8.advance os byte = some os') :
    ∃ s', s.next byte = some s' ∧ Escapes os' s' ∧ s'.written = s.written ++ escapeByte byte := by
  cases os with
  | nil =>
    rw [Utf8.advance] at hadvance
    cases os' with
    | nil =>
      have hdecode := decode_ascii h.decodes hadvance
      exact next_accept h (by rw [hdecode]) (by rw [hdecode]; rfl)
    | cons r os' =>
      exact next_incomplete h (decode_lead h.decodes hadvance) (Or.inl rfl)
        (Utf8.le_of_trails_cons hadvance) fun _ hr =>
          UInt8.le_iff_toNat_le.mpr (Utf8.bounds_of_mem_trails hadvance hr).1
  | cons r os =>
    rw [Utf8.advance] at hadvance
    split at hadvance
    · next hwithin =>
      cases hadvance
      have hbyte := le_of_within (h.beyond r (List.mem_cons_self ..)) hwithin
      have hdecodes := decode_later h.decodes hwithin
      cases os' with
      | nil =>
        refine next_accept h (hdecodes.eq_accept_iff.mpr rfl) ?_
        rw [escapeByte, escapeCodepoint_of_le hbyte, escapeCodepoint_of_le (decode_last h.decodes)]
      | cons r' os' =>
        exact next_incomplete h hdecodes (Or.inr rfl) hbyte fun r'' hr =>
          h.beyond r'' (List.mem_cons_of_mem _ hr)
    · cases hadvance

private theorem next_none (h : Escapes os s) (hadvance : Utf8.advance os byte = none) :
    s.next byte = none := by
  have hreject : (decode s.state s.codepoint byte).1 = utf8Reject := by
    cases os with
    | nil => exact decode_refused h.decodes hadvance
    | cons r os =>
      rw [Utf8.advance] at hadvance
      split at hadvance
      · cases hadvance
      · next hwithin => exact decode_later_refused h.decodes (Bool.eq_false_iff.mpr hwithin)
  have haccept : ¬ (decode s.state s.codepoint byte).1 = utf8Accept := by
    rw [hreject]
    decide
  exact (if_neg haccept).trans (if_pos hreject)

/-- A string is written byte by byte, if it is well formed. -/
theorem foldlM_next (h : Escapes os s) (bs : Bytes) :
    ((bs.foldlM Escaper.next s).bind fun s =>
      if s.state = utf8Accept then some s.finish.output else none) =
      if Utf8.check os bs then some (s.written ++ bs.flatMap escapeByte) else none := by
  induction bs generalizing s os with
  | nil =>
    have hiff := h.decodes.eq_accept_iff
    rw [Utf8.check, List.flatMap_nil, List.append_nil]
    cases os with
    | nil => exact (if_pos (hiff.mpr rfl)).trans (congrArg some (Escaper.output_finish s))
    | cons r os => exact if_neg fun hzero => List.cons_ne_nil r os (hiff.mp hzero)
  | cons b bs ih =>
    rw [Utf8.check, List.foldlM_cons]
    cases hadvance : Utf8.advance os b with
    | none =>
      rw [next_none h hadvance]
      rfl
    | some os' =>
      obtain ⟨s', hnext, h', hwritten⟩ := next_some h hadvance
      rw [hnext]
      refine (ih h').trans ?_
      rw [hwritten, List.append_assoc, List.flatMap_cons]

private theorem exists_escapes (h : Escapes os s) {bs : Bytes} {s' : Escaper}
    (hfold : bs.foldlM Escaper.next s = some s') : ∃ os', Escapes os' s' := by
  induction bs generalizing s os with
  | nil =>
    cases hfold
    exact ⟨os, h⟩
  | cons b bs ih =>
    rw [List.foldlM_cons] at hfold
    cases hadvance : Utf8.advance os b with
    | none =>
      rw [next_none h hadvance] at hfold
      cases hfold
    | some os' =>
      obtain ⟨s'', hnext, h'', _⟩ := next_some h hadvance
      rw [hnext] at hfold
      exact ih h'' hfold

end Escape

/-- A string that is UTF-8 is written with the bytes escaped that need it, whatever the array has
in it; another one throws. -/
theorem dumpEscapedFrom_eq {stringBuffer : Bytes}
    (hsize : stringBuffer.length = Escaper.bufferSize) (s : Bytes) :
    dumpEscapedFrom stringBuffer s =
      if s.toByteArray.IsValidUTF8 then some (s.flatMap escapeByte) else none := by
  refine (foldlM_next (escapes_start hsize) s).trans ?_
  by_cases hvalid : s.toByteArray.IsValidUTF8
  · rw [if_pos (Utf8.check_iff.mpr hvalid), if_pos hvalid]
    rfl
  · rw [if_neg (fun h => hvalid (Utf8.check_iff.mp h)), if_neg hvalid]

/-- So it is with the array as the serializer is made. -/
theorem dumpEscaped_eq (s : Bytes) :
    dumpEscaped s = if s.toByteArray.IsValidUTF8 then some (s.flatMap escapeByte) else none :=
  dumpEscapedFrom_eq List.length_replicate s

/-- Every index of `string_buffer` that is written or read is inside the array, whatever string has
been begun and whatever the array has in it, and what is flushed and what is left come to the whole
escaped string. -/
theorem dumpEscaped_in_buffer {stringBuffer : Bytes}
    (hsize : stringBuffer.length = Escaper.bufferSize) (s : Bytes) :
    (∀ front back e, s = front ++ back →
      front.foldlM Escaper.next (Escaper.start stringBuffer) = some e →
      ∀ i ∈ e.finish.accesses, i < stringBuffer.length) ∧
    dumpEscapedFrom stringBuffer s =
      if s.toByteArray.IsValidUTF8 then some (s.flatMap escapeByte) else none := by
  refine ⟨fun front back e _ hfold i hi => ?_, dumpEscapedFrom_eq hsize s⟩
  obtain ⟨os, h⟩ := exists_escapes (escapes_start hsize) hfold
  have hfinish := Escaper.finish_inBuffer h.inBuffer (Nat.le_trans (by omega) h.bytes_le)
  rw [hsize]
  exact hfinish.inside i hi

/-- A letter and a newline, with a new serializer. -/
theorem dumpEscaped_in_buffer_zeros :
    (∀ front back e, [97, 10] = front ++ back →
      front.foldlM Escaper.next (Escaper.start (List.replicate Escaper.bufferSize 0)) = some e →
      ∀ i ∈ e.finish.accesses, i < (List.replicate Escaper.bufferSize (0 : UInt8)).length) ∧
    dumpEscapedFrom (List.replicate Escaper.bufferSize 0) [97, 10] =
      if (List.toByteArray [97, 10]).IsValidUTF8 then some ([97, 10].flatMap escapeByte)
      else none :=
  dumpEscaped_in_buffer List.length_replicate [97, 10]

/-! ## Integers -/

open Decimal in
private theorem digits_pair {n : Nat} (h : 100 ≤ n) :
    digits n = digits (n / 100) ++ [UInt8.ofNat (48 + n % 100 / 10),
      UInt8.ofNat (48 + n % 100 % 10)] := by
  rw [digits_of_le (by omega), digits_of_le (by omega), Nat.div_div_eq_div_mul, List.append_assoc]
  have hten : n / 10 % 10 = n % 100 / 10 := by omega
  have hone : n % 10 = n % 100 % 10 := by omega
  rw [hten, hone]
  rfl

open Decimal in
private theorem digits_two {n : Nat} (h : 10 ≤ n) (h' : n < 100) :
    digits n = [UInt8.ofNat (48 + n / 10), UInt8.ofNat (48 + n % 10)] := by
  rw [digits_of_le h, digits_of_lt (by omega)]
  rfl

/-- The loop that counts counts the digits. -/
theorem countDigits_eq (x : Nat) : countDigits x = (Decimal.digits x).length := by
  induction x using Nat.strongRecOn with
  | ind x ih =>
    rw [countDigits]
    split_ifs with h1 h2 h3 h4
    · rw [Decimal.digits_of_lt h1]
      rfl
    · rw [digits_two (by omega) h2]
      rfl
    · rw [digits_pair (by omega), Decimal.digits_of_lt (by omega)]
      rfl
    · rw [digits_pair (by omega), digits_two (by omega) (by omega)]
      rfl
    · rw [ih (x / 10000) (by omega), digits_pair (n := x) (by omega),
        digits_pair (n := x / 100) (by omega), Nat.div_div_eq_div_mul, List.length_append,
        List.length_append]
      rfl

private theorem putBack_append (front back : Bytes) (old c : UInt8) :
    putBack (front ++ old :: back, front.length + 1) c = (front ++ c :: back, front.length) := by
  rw [putBack, Nat.add_sub_cancel, List.set_append_right _ _ (Nat.le_refl _), Nat.sub_self]
  rfl

private theorem putPair_append (front back : Bytes) (old old' : UInt8) (n : Nat) :
    putPair (front ++ old :: old' :: back, front.length + 2) n =
      (front ++ UInt8.ofNat (48 + n / 10) :: UInt8.ofNat (48 + n % 10) :: back, front.length) := by
  have hlast := putBack_append (front ++ [old]) back old' (UInt8.ofNat (48 + n % 10))
  rw [List.length_append, List.append_assoc, List.append_assoc] at hlast
  rw [putPair]
  refine (congrArg (putBack · _) hlast).trans ?_
  exact putBack_append front _ old _

/-- The digits come to stand in front of `buffer_ptr`, in the place of as many bytes. -/
theorem fillDigits_append (n : Nat) (front : Bytes) {room : Bytes} (back : Bytes)
    (h : room.length = (Decimal.digits n).length) :
    fillDigits n (front ++ room ++ back, front.length + room.length) =
      (front ++ Decimal.digits n ++ back, front.length) := by
  induction n using Nat.strongRecOn generalizing room back with
  | ind n ih =>
    rw [fillDigits]
    split_ifs with hhundred hten
    · rw [digits_pair hhundred, List.length_append] at h
      obtain ⟨room', pair, rfl, hroom, hpair⟩ : ∃ room' pair, room = room' ++ pair ∧
          room'.length = (Decimal.digits (n / 100)).length ∧ pair.length = 2 := by
        refine ⟨room.take (room.length - 2), room.drop (room.length - 2),
          (List.take_append_drop _ _).symm, ?_, ?_⟩
        · rw [List.length_take]
          simp only [List.length_cons, List.length_nil] at h
          omega
        · rw [List.length_drop]
          simp only [List.length_cons, List.length_nil] at h
          omega
      obtain ⟨old, old', rfl⟩ := List.length_eq_two.mp hpair
      have hput := putPair_append (front ++ room') back old old' (n % 100)
      rw [List.length_append] at hput
      rw [← List.append_assoc front, List.append_assoc (front ++ room'), List.length_append,
        ← Nat.add_assoc]
      refine (congrArg (fillDigits (n / 100)) hput).trans ?_
      rw [ih (n / 100) (by omega) _ hroom, digits_pair hhundred]
      simp only [List.append_assoc, List.cons_append, List.nil_append]
    · rw [digits_two hten (by omega)] at h ⊢
      obtain ⟨old, old', rfl⟩ := List.length_eq_two.mp h
      rw [List.append_assoc, List.append_assoc]
      exact putPair_append front back old old' n
    · rw [Decimal.digits_of_lt (by omega)] at h ⊢
      obtain ⟨old, rfl⟩ := List.length_eq_one_iff.mp h
      rw [List.append_assoc, List.append_assoc]
      exact putBack_append front back old _

private theorem fillDigits_take (n : Nat) (front : Bytes) {rest : Bytes}
    (h : (Decimal.digits n).length ≤ rest.length) :
    (fillDigits n (front ++ rest, front.length + (Decimal.digits n).length)).1.take
      (front.length + (Decimal.digits n).length) = front ++ Decimal.digits n := by
  have hroom : (rest.take (Decimal.digits n).length).length = (Decimal.digits n).length := by
    rw [List.length_take]
    omega
  have hfill := fillDigits_append n front (rest.drop (Decimal.digits n).length) hroom
  rw [List.append_assoc, List.take_append_drop, hroom] at hfill
  rw [hfill, ← List.length_append, List.take_left]

/-- An integer of either type is printed in decimal. -/
theorem dumpInteger_eq {x : Int} (h : -2 ^ 63 ≤ x) (h' : x < 2 ^ 64) :
    dumpInteger x = Decimal.encode x := by
  have hlen : (Decimal.digits x.natAbs).length ≤ 20 := Decimal.length_digits_le (by decide) (by omega)
  rw [dumpInteger]
  split_ifs with hzero hneg
  · rw [hzero]
    exact (Decimal.digits_of_lt (n := 0) (by decide)).symm
  · rw [countDigits_eq]
    have hfill := @fillDigits_take x.natAbs [45] (List.replicate 63 0)
      (by rw [List.length_replicate]; omega)
    refine hfill.trans ?_
    obtain ⟨n, rfl⟩ : ∃ n, x = .negSucc n := Int.eq_negSucc_of_lt_zero hneg
    rfl
  · rw [countDigits_eq]
    have hfill := @fillDigits_take x.natAbs [] numberBuffer
      (by rw [numberBuffer, List.length_replicate]; omega)
    rw [List.length_nil, Nat.zero_add] at hfill
    refine hfill.trans ?_
    obtain ⟨n, rfl⟩ : ∃ n, x = .ofNat n := Int.eq_ofNat_of_zero_le (by omega)
    rfl

end ChatRoom.Nlohmann
