import ChatRoom.Core.Decimal
import ChatRoom.Nlohmann.Serializer

/-!
# The lexer

`lexer::scan` of the JSON library, on the bytes that are left of the input. What `get` reads is
taken from their front, and what `unget` gives back stays there. `strtod` is a parameter. A zero
byte between two tokens ends the input.
-/

namespace ChatRoom.Nlohmann

open ChatRoom.Core

/-- The tokens, with the value that the parser takes from the lexer. -/
inductive Token where
  | literalTrue
  | literalFalse
  | literalNull
  | valueString (s : Bytes)
  | valueUnsigned (n : Nat)
  | valueInteger (n : Int)
  | valueFloat (x : BitVec 64)
  | beginArray
  | beginObject
  | endArray
  | endObject
  | nameSeparator
  | valueSeparator
  | parseError
  | endOfInput
  deriving DecidableEq, Repr

/-! ## Strings -/

/-- What `get_codepoint` adds for a digit, before the shift. -/
def hexValue (c : UInt8) : Option Nat :=
  if 48 ≤ c ∧ c ≤ 57 then some (c.toNat - 0x30)
  else if 65 ≤ c ∧ c ≤ 70 then some (c.toNat - 0x37)
  else if 97 ≤ c ∧ c ≤ 102 then some (c.toNat - 0x57)
  else none

/-- `get_codepoint`, with the factors that are left and the sum so far. -/
def getCodepoint : List Nat → Nat → Bytes → Option (Nat × Bytes)
  | [], codepoint, bs => some (codepoint, bs)
  | _ :: _, _, [] => none
  | factor :: factors, codepoint, c :: bs =>
    match hexValue c with
    | some n => getCodepoint factors (codepoint + n <<< factor) bs
    | none => none

/-- The shifts of the four digits. -/
def factors : List Nat := [12, 8, 4, 0]

/-- The bytes of a code point. -/
def addCodepoint (codepoint : Nat) : Bytes :=
  if codepoint < 0x80 then [UInt8.ofNat codepoint]
  else if codepoint ≤ 0x7FF then
    [UInt8.ofNat (0xC0 ||| codepoint >>> 6), UInt8.ofNat (0x80 ||| codepoint &&& 0x3F)]
  else if codepoint ≤ 0xFFFF then
    [UInt8.ofNat (0xE0 ||| codepoint >>> 12), UInt8.ofNat (0x80 ||| codepoint >>> 6 &&& 0x3F),
      UInt8.ofNat (0x80 ||| codepoint &&& 0x3F)]
  else
    [UInt8.ofNat (0xF0 ||| codepoint >>> 18), UInt8.ofNat (0x80 ||| codepoint >>> 12 &&& 0x3F),
      UInt8.ofNat (0x80 ||| codepoint >>> 6 &&& 0x3F), UInt8.ofNat (0x80 ||| codepoint &&& 0x3F)]

/-- After `\u`: what is added to the token, and what is left. -/
def scanUnicode (bs : Bytes) : Option (Bytes × Bytes) :=
  match getCodepoint factors 0 bs with
  | none => none
  | some (codepoint1, rest) =>
    if 0xD800 ≤ codepoint1 ∧ codepoint1 ≤ 0xDBFF then
      match rest with
      | c :: d :: rest =>
        if c = 92 ∧ d = 117 then
          match getCodepoint factors 0 rest with
          | none => none
          | some (codepoint2, rest) =>
            if 0xDC00 ≤ codepoint2 ∧ codepoint2 ≤ 0xDFFF then
              some (addCodepoint (codepoint1 <<< 10 + codepoint2 - 0x35FDC00), rest)
            else none
        else none
      | _ => none
    else if 0xDC00 ≤ codepoint1 ∧ codepoint1 ≤ 0xDFFF then none
    else some (addCodepoint codepoint1, rest)

/-- After a backslash. -/
def scanEscape : Bytes → Option (Bytes × Bytes)
  | [] => none
  | c :: rest =>
    if c = 34 then some ([34], rest)
    else if c = 92 then some ([92], rest)
    else if c = 47 then some ([47], rest)
    else if c = 98 then some ([8], rest)
    else if c = 102 then some ([12], rest)
    else if c = 110 then some ([10], rest)
    else if c = 114 then some ([13], rest)
    else if c = 116 then some ([9], rest)
    else if c = 117 then scanUnicode rest
    else none

/-- The ranges that `next_byte_in_range` is called with after a byte beyond ASCII. -/
def byteRanges (c : UInt8) : Option (List (UInt8 × UInt8)) :=
  if 0xC2 ≤ c ∧ c ≤ 0xDF then some [(0x80, 0xBF)]
  else if c = 0xE0 then some [(0xA0, 0xBF), (0x80, 0xBF)]
  else if 0xE1 ≤ c ∧ c ≤ 0xEC ∨ 0xEE ≤ c ∧ c ≤ 0xEF then some [(0x80, 0xBF), (0x80, 0xBF)]
  else if c = 0xED then some [(0x80, 0x9F), (0x80, 0xBF)]
  else if c = 0xF0 then some [(0x90, 0xBF), (0x80, 0xBF), (0x80, 0xBF)]
  else if 0xF1 ≤ c ∧ c ≤ 0xF3 then some [(0x80, 0xBF), (0x80, 0xBF), (0x80, 0xBF)]
  else if c = 0xF4 then some [(0x80, 0x8F), (0x80, 0xBF), (0x80, 0xBF)]
  else none

/-- The bytes that are read, if each is inside its range. -/
def nextByteInRange : List (UInt8 × UInt8) → Bytes → Option (Bytes × Bytes)
  | [], bs => some ([], bs)
  | _ :: _, [] => none
  | range :: ranges, c :: bs =>
    if range.1 ≤ c ∧ c ≤ range.2 then (nextByteInRange ranges bs).map fun r => (c :: r.1, r.2)
    else none

private theorem length_getCodepoint {fs : List Nat} {n : Nat} {bs : Bytes} {r : Nat × Bytes}
    (h : getCodepoint fs n bs = some r) : r.2.length ≤ bs.length := by
  fun_induction getCodepoint fs n bs with
  | case1 n bs =>
    cases h
    exact Nat.le_refl _
  | case3 f fs n c bs k hk ih => exact Nat.le_succ_of_le (ih h)
  | _ => cases h

private theorem length_scanUnicode {bs : Bytes} {r : Bytes × Bytes} (h : scanUnicode bs = some r) :
    r.2.length ≤ bs.length := by
  rw [scanUnicode] at h
  split at h
  · cases h
  · next codepoint1 rest hfirst =>
    have hle := length_getCodepoint hfirst
    split at h
    · split at h
      · next c d rest' =>
        split at h
        · split at h
          · cases h
          · next codepoint2 rest'' hsecond =>
            have hle' := length_getCodepoint hsecond
            split at h
            · rw [← Option.some.inj h]
              exact Nat.le_trans hle' (Nat.le_trans (Nat.le_add_right _ 2) hle)
            · cases h
        · cases h
      · cases h
    · split at h
      · cases h
      · cases h
        exact hle

/-- An escape leaves no more than there was. -/
theorem length_scanEscape {bs : Bytes} {r : Bytes × Bytes} (h : scanEscape bs = some r) :
    r.2.length ≤ bs.length := by
  cases bs with
  | nil => cases h
  | cons c rest =>
    rw [scanEscape] at h
    split_ifs at h <;> first
      | exact Nat.le_succ_of_le (length_scanUnicode h)
      | (cases h; exact Nat.le_succ _)

/-- The later bytes of a character leave no more than there was. -/
theorem length_nextByteInRange {ranges : List (UInt8 × UInt8)} {bs : Bytes} {r : Bytes × Bytes}
    (h : nextByteInRange ranges bs = some r) : r.2.length ≤ bs.length := by
  induction ranges generalizing bs r with
  | nil =>
    cases h
    exact Nat.le_refl _
  | cons range ranges ih =>
    cases bs with
    | nil => cases h
    | cons c bs =>
      rw [nextByteInRange] at h
      split at h
      · obtain ⟨r', hr', rfl⟩ := Option.map_eq_some_iff.mp h
        have hle : r'.2.length ≤ bs.length := ih hr'
        exact Nat.le_succ_of_le hle
      · cases h

/-- `scan_string`, after the opening quote: the token and what is left. -/
def scanString : Bytes → Option (Bytes × Bytes)
  | [] => none
  | c :: bs =>
    if c = 34 then some ([], bs)
    else if c = 92 then
      match _h : scanEscape bs with
      | none => none
      | some (added, rest) => (scanString rest).map fun r => (added ++ r.1, r.2)
    else if c < 0x20 then none
    else if c < 0x80 then (scanString bs).map fun r => (c :: r.1, r.2)
    else
      match byteRanges c with
      | none => none
      | some ranges =>
        match _h : nextByteInRange ranges bs with
        | none => none
        | some (added, rest) => (scanString rest).map fun r => (c :: (added ++ r.1), r.2)
termination_by bs => bs.length
decreasing_by
  · exact Nat.lt_succ_of_le (length_scanEscape _h)
  · exact Nat.lt_succ_self _
  · exact Nat.lt_succ_of_le (length_nextByteInRange _h)

/-! ## Numbers -/

/-- The labels of `scan_number`. -/
inductive NumberState where
  | minus
  | zero
  | any1
  | decimal1
  | decimal2
  | exponent
  | sign
  | any2
  deriving DecidableEq, Repr

/-- `number_type`. -/
inductive NumberType where
  | unsigned
  | integer
  | float
  deriving DecidableEq, Repr

/-- Where the next character leads. -/
inductive NumberMove where
  | goto (s : NumberState)
  | done
  | error
  deriving DecidableEq, Repr

namespace NumberState

/-- What entering a state makes of the type. -/
def type : NumberState → NumberType → NumberType
  | minus, _ => .integer
  | decimal1, _ => .float
  | exponent, _ => .float
  | _, t => t

/-- The switch of each state. -/
def next (s : NumberState) (c : Option UInt8) : NumberMove :=
  let digit := c.any Decimal.isDigit
  let e := c = some 101 ∨ c = some 69
  match s with
  | minus => if c = some 48 then .goto zero else if digit then .goto any1 else .error
  | zero => if c = some 46 then .goto decimal1 else if e then .goto exponent else .done
  | any1 =>
    if digit then .goto any1 else if c = some 46 then .goto decimal1
    else if e then .goto exponent else .done
  | decimal1 => if digit then .goto decimal2 else .error
  | decimal2 => if digit then .goto decimal2 else if e then .goto exponent else .done
  | exponent =>
    if c = some 43 ∨ c = some 45 then .goto sign else if digit then .goto any2 else .error
  | sign => if digit then .goto any2 else .error
  | any2 => if digit then .goto any2 else .done

end NumberState

/-- The rest of a number from a state on: its bytes, its type and what is left. -/
def scanNumberFrom (s : NumberState) (t : NumberType) : Bytes → Option (Bytes × NumberType × Bytes)
  | [] =>
    match s.next none with
    | .done => some ([], t, [])
    | _ => none
  | c :: bs =>
    match s.next (some c) with
    | .goto s' => (scanNumberFrom s' (s'.type t) bs).map fun r => (c :: r.1, r.2)
    | .done => some ([], t, c :: bs)
    | .error => none

/-- `strtoull`, `strtoll` and `strtod`, the last one where the others fail. -/
def convert (strtod : Bytes → BitVec 64) (lexeme : Bytes) : NumberType → Token
  | .unsigned =>
    if Decimal.value lexeme < 2 ^ 64 then .valueUnsigned (Decimal.value lexeme)
    else .valueFloat (strtod lexeme)
  | .integer =>
    if Decimal.value lexeme.tail ≤ 2 ^ 63 then .valueInteger (-Decimal.value lexeme.tail)
    else .valueFloat (strtod lexeme)
  | .float => .valueFloat (strtod lexeme)

/-- `scan_number`, whose first character has been read. -/
def scanNumber (strtod : Bytes → BitVec 64) (c : UInt8) (bs : Bytes) : Token × Bytes :=
  let first : NumberState := if c = 45 then .minus else if c = 48 then .zero else .any1
  match scanNumberFrom first (first.type .unsigned) bs with
  | some (lexeme, t, rest) => (convert strtod (c :: lexeme) t, rest)
  | none => (.parseError, [])

/-! ## Tokens -/

/-- `scan_literal` after its first character. -/
def scanLiteral (returnType : Token) : Bytes → Bytes → Token × Bytes
  | [], bs => (returnType, bs)
  | _ :: _, [] => (.parseError, [])
  | c :: literal, b :: bs =>
    if b = c then scanLiteral returnType literal bs else (.parseError, bs)

/-- What `skip_whitespace` skips. -/
def isWhitespace (c : UInt8) : Bool := c = 32 ∨ c = 9 ∨ c = 10 ∨ c = 13

/-- The switch of `scan`. After an error nothing is read any more. -/
def scanToken (strtod : Bytes → BitVec 64) (c : UInt8) (rest : Bytes) : Token × Bytes :=
  if c = 91 then (.beginArray, rest)
  else if c = 93 then (.endArray, rest)
  else if c = 123 then (.beginObject, rest)
  else if c = 125 then (.endObject, rest)
  else if c = 58 then (.nameSeparator, rest)
  else if c = 44 then (.valueSeparator, rest)
  else if c = 116 then scanLiteral .literalTrue [114, 117, 101] rest
  else if c = 102 then scanLiteral .literalFalse [97, 108, 115, 101] rest
  else if c = 110 then scanLiteral .literalNull [117, 108, 108] rest
  else if c = 34 then
    match scanString rest with
    | some (s, rest) => (.valueString s, rest)
    | none => (.parseError, [])
  else if c = 45 ∨ Decimal.isDigit c then scanNumber strtod c rest
  else if c = 0 then (.endOfInput, rest)
  else (.parseError, rest)

/-- `scan`, after the first call has skipped the byte order mark. -/
def scan (strtod : Bytes → BitVec 64) (bs : Bytes) : Token × Bytes :=
  match bs.dropWhile isWhitespace with
  | [] => (.endOfInput, [])
  | c :: rest => scanToken strtod c rest

/-- `skip_bom`. -/
def skipBom : Bytes → Option Bytes
  | c :: bs =>
    if c = 0xEF then
      match bs with
      | d :: e :: rest => if d = 0xBB ∧ e = 0xBF then some rest else none
      | _ => none
    else some (c :: bs)
  | [] => some []

end ChatRoom.Nlohmann
