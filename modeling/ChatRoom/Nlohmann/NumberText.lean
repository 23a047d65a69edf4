import ChatRoom.Nlohmann.Dump
import ChatRoom.Nlohmann.LexerText

/-!
# The numbers of the lexer

`scan_number` accepts the numbers of the grammar, as far as it can go on with one. Its type says
whether the number has a fraction or an exponent, and if it has none, whether it has a sign.
-/

namespace ChatRoom.Nlohmann

open ChatRoom.Core Chat JsonText

namespace NumberState

/-- How a number may end in each state. -/
def accepts : NumberState → Bytes → Bool
  | minus, bs => isUnsigned bs
  | zero, bs => isFraction bs
  | any1, bs => isFraction (bs.dropWhile Decimal.isDigit)
  | decimal1, bs => (afterDigits bs).any isExponent
  | decimal2, bs => isExponent (bs.dropWhile Decimal.isDigit)
  | exponent, bs =>
    afterDigits bs = some [] ∨ ∃ s ∈ bs.head?, (s = 43 ∨ s = 45) ∧ afterDigits bs.tail = some []
  | sign, bs => afterDigits bs = some []
  | any2, bs => bs.dropWhile Decimal.isDigit = []

private theorem accepts_nil (s : NumberState) : s.accepts [] = decide (s.next none = .done) := by
  cases s <;> rfl

variable {c : UInt8} {bs : Bytes}

private theorem afterDigits_cons (c : UInt8) (bs : Bytes) : afterDigits (c :: bs) =
    if Decimal.isDigit c then some (bs.dropWhile Decimal.isDigit) else none := rfl

private theorem isExponent_cons (c : UInt8) (bs : Bytes) :
    isExponent (c :: bs) = if c = 101 ∨ c = 69 then exponent.accepts bs else false := by
  by_cases he : c = 101 ∨ c = 69
  · rw [if_pos he, isExponent, accepts]
    simp only [he.symm, true_and]
  · rw [if_neg he, isExponent]
    exact decide_eq_false fun h => he h.1.symm

private theorem isFraction_cons (c : UInt8) (bs : Bytes) : isFraction (c :: bs) =
    if c = 46 then decimal1.accepts bs else if c = 101 ∨ c = 69 then exponent.accepts bs
    else false := by
  rw [isFraction, isExponent_cons, accepts]
  cases afterDigits bs <;> rfl

/-- A state goes on with the bytes that a number may go on with. -/
theorem accepts_cons (s : NumberState) (c : UInt8) (bs : Bytes) : s.accepts (c :: bs) =
    match s.next (some c) with
    | .goto s' => s'.accepts bs
    | _ => false := by
  have hany : (some c).any Decimal.isDigit = Decimal.isDigit c := rfl
  cases s with
  | minus =>
    simp only [next, accepts, isUnsigned, hany, Option.some.injEq]
    split_ifs <;> rfl
  | zero =>
    simp only [next, accepts, isFraction_cons, Option.some.injEq]
    split_ifs <;> rfl
  | any1 =>
    simp only [next, hany, Option.some.injEq]
    by_cases hdigit : Decimal.isDigit c = true
    · rw [if_pos hdigit, accepts, List.dropWhile_cons_of_pos hdigit]
      rfl
    · rw [if_neg hdigit, accepts, List.dropWhile_cons_of_neg hdigit, isFraction_cons]
      split_ifs <;> rfl
  | decimal1 =>
    simp only [next, hany, accepts, afterDigits_cons]
    split_ifs <;> rfl
  | decimal2 =>
    simp only [next, hany, Option.some.injEq]
    by_cases hdigit : Decimal.isDigit c = true
    · rw [if_pos hdigit, accepts, List.dropWhile_cons_of_pos hdigit]
      rfl
    · rw [if_neg hdigit, accepts, List.dropWhile_cons_of_neg hdigit, isExponent_cons]
      split_ifs <;> rfl
  | exponent =>
    simp only [next, hany, Option.some.injEq, accepts, afterDigits_cons, List.head?_cons,
      List.tail_cons, Option.mem_some_iff, exists_eq_left']
    by_cases hsign : c = 43 ∨ c = 45
    · have hdigit : ¬Decimal.isDigit c = true := by rcases hsign with rfl | rfl <;> decide
      rw [if_pos hsign, if_neg hdigit]
      simp only [hsign, true_and, reduceCtorEq, false_or]
    · rw [if_neg hsign]
      simp only [hsign, false_and, or_false]
      split_ifs <;> simp
  | sign =>
    simp only [next, hany, accepts, afterDigits_cons]
    split_ifs <;> simp
  | any2 =>
    simp only [next, hany]
    by_cases hdigit : Decimal.isDigit c = true
    · rw [if_pos hdigit, accepts, List.dropWhile_cons_of_pos hdigit]
      rfl
    · rw [if_neg hdigit, accepts, List.dropWhile_cons_of_neg hdigit]
      simp

/-- A byte that ends a number where nothing would end it as well. -/
theorem next_none_of_done (s : NumberState) (h : s.next (some c) = .done) :
    s.next none = .done := by
  cases s <;> simp only [next] at h <;> split_ifs at h <;> rfl

private theorem next_of_not_numberByte (s : NumberState) (h : isNumberByte c = false) :
    s.next (some c) = s.next none := by
  have hbyte : ¬(Decimal.isDigit c = true ∨ c = 43 ∨ c = 45 ∨ c = 46 ∨ c = 69 ∨ c = 101) :=
    of_decide_eq_false h
  simp only [not_or] at hbyte
  obtain ⟨hdigit, hplus, hminus, hdot, he, he'⟩ := hbyte
  have hzero : c ≠ 48 := by
    rintro rfl
    exact hdigit rfl
  simp [next, hdigit, hplus, hminus, hdot, he, he', hzero]

end NumberState

/-! ## What is read of a number -/

/-- The type at the end of a number. -/
def typeAfter (s : NumberState) (t : NumberType) : Bytes → NumberType
  | [] => t
  | c :: bs =>
    match s.next (some c) with
    | .goto s' => typeAfter s' (s'.type t) bs
    | _ => t

/-- What is scanned is a number in front of what is left. -/
theorem scanNumberFrom_eq {s : NumberState} {t t' : NumberType} {bs front rest : Bytes}
    (h : scanNumberFrom s t bs = some (front, t', rest)) :
    bs = front ++ rest ∧ s.accepts front = true ∧ t' = typeAfter s t front := by
  induction bs generalizing s t front with
  | nil =>
    rw [scanNumberFrom] at h
    split at h
    · next hdone =>
      cases h
      exact ⟨rfl, by rw [NumberState.accepts_nil, hdone]; rfl, rfl⟩
    · cases h
  | cons c bs ih =>
    rw [scanNumberFrom] at h
    split at h
    · next s' hgoto =>
      obtain ⟨⟨front', t'', rest'⟩, hrest, heq⟩ := Option.map_eq_some_iff.mp h
      cases heq
      obtain ⟨hsplit, haccepts, htype⟩ := ih hrest
      refine ⟨by rw [hsplit]; rfl, ?_, ?_⟩
      · rw [NumberState.accepts_cons, hgoto]
        exact haccepts
      · rw [typeAfter, hgoto]
        exact htype
    · next hdone =>
      cases h
      refine ⟨rfl, ?_, rfl⟩
      rw [NumberState.accepts_nil, NumberState.next_none_of_done _ hdone]
      rfl
    · cases h

/-- A number is scanned up to where it stops. -/
theorem scanNumberFrom_append {s : NumberState} {front rest : Bytes}
    (h : s.accepts front = true) (hstops : Stops rest) (t : NumberType) :
    scanNumberFrom s t (front ++ rest) = some (front, typeAfter s t front, rest) := by
  induction front generalizing s t with
  | nil =>
    rw [NumberState.accepts_nil] at h
    have hdone := of_decide_eq_true h
    cases rest with
    | nil => rw [List.nil_append, scanNumberFrom, hdone]; rfl
    | cons c rest =>
      have hnext := NumberState.next_of_not_numberByte s (hstops c rfl)
      rw [List.nil_append, scanNumberFrom, hnext, hdone]
      rfl
  | cons c front ih =>
    rw [NumberState.accepts_cons] at h
    rw [List.cons_append, scanNumberFrom, typeAfter]
    split at h
    · next s' hgoto =>
      rw [hgoto]
      dsimp only
      rw [ih h]
      rfl
    · cases h

/-- No state leads back to the sign. -/
theorem next_ne_minus (s : NumberState) (c : Option UInt8) : s.next c ≠ .goto .minus := by
  cases s <;> simp only [NumberState.next] <;> split_ifs <;> nofun

private theorem typeAfter_float (s : NumberState) (bs : Bytes) :
    typeAfter s .float bs = .float := by
  induction bs generalizing s with
  | nil => rfl
  | cons c bs ih =>
    rw [typeAfter]
    split
    · next s' hgoto =>
      have htype : s'.type .float = .float := by
        cases s' with
        | minus => exact absurd hgoto (next_ne_minus s _)
        | _ => rfl
      rw [htype, ih]
    · rfl

/-- A number is a float from its first byte on that is no digit. -/
theorem typeAfter_integral {s : NumberState} (hs : s = .minus ∨ s = .zero ∨ s = .any1)
    {bs : Bytes} (h : s.accepts bs = true) (t : NumberType) :
    typeAfter s t bs = if bs.all Decimal.isDigit then t else .float := by
  induction bs generalizing s with
  | nil => rfl
  | cons c bs ih =>
    rw [NumberState.accepts_cons] at h
    rw [typeAfter, List.all_cons]
    have hany : (some c).any Decimal.isDigit = Decimal.isDigit c := rfl
    by_cases hdigit : Decimal.isDigit c = true
    · have hgoto : ∃ s', s.next (some c) = .goto s' ∧ (s' = .zero ∨ s' = .any1) := by
        rcases hs with rfl | rfl | rfl
        · simp only [NumberState.next, hany, if_pos hdigit]
          split
          · exact ⟨_, rfl, Or.inl rfl⟩
          · exact ⟨_, rfl, Or.inr rfl⟩
        · have hdone : NumberState.zero.next (some c) = .done := by
            have hdot : c ≠ 46 := by
              rintro rfl
              cases hdigit
            have he : ¬(c = 101 ∨ c = 69) := by
              rintro (rfl | rfl) <;> cases hdigit
            simp only [NumberState.next, Option.some.injEq, if_neg hdot, if_neg he]
          rw [hdone] at h
          cases h
        · exact ⟨_, by simp only [NumberState.next, hany, if_pos hdigit], Or.inr rfl⟩
      obtain ⟨s', hgoto, hs'⟩ := hgoto
      rw [hgoto] at h ⊢
      have htype : s'.type t = t := by rcases hs' with rfl | rfl <;> rfl
      rw [hdigit, Bool.true_and]
      dsimp only
      rw [htype, ih (Or.inr hs') h]
    · have hfloat : ∀ s', s.next (some c) = .goto s' → s'.type t = .float := by
        intro s' hgoto
        have hzero : c ≠ 48 := by
          rintro rfl
          exact hdigit rfl
        rcases hs with rfl | rfl | rfl <;>
          simp only [NumberState.next, hany, Option.some.injEq, if_neg hdigit, if_neg hzero] at hgoto
        · cases hgoto
        · split_ifs at hgoto <;> cases hgoto <;> rfl
        · split_ifs at hgoto <;> cases hgoto <;> rfl
      rw [Bool.eq_false_iff.mpr hdigit, Bool.false_and, if_neg Bool.false_ne_true]
      split
      · next s' hgoto => rw [hfloat s' hgoto, typeAfter_float]
      · next hne =>
        split at h
        · next s' hgoto => exact absurd hgoto (hne s')
        · cases h

/-! ## Numbers as values -/

/-- What the parser makes of a token that is a value. -/
def tokenValue : Token → Option Json
  | .valueFloat x => if isfinite x then some (.numberFloat x) else none
  | .literalFalse => some (.boolean false)
  | .literalNull => some .null
  | .literalTrue => some (.boolean true)
  | .valueInteger n => some (.numberInteger n)
  | .valueString s => some (.string s)
  | .valueUnsigned n => some (.numberInteger n)
  | _ => none

/-- The value of a number: an integer if it is spelled as one and has 64 bits. -/
def numberOf (strtod : Bytes → BitVec 64) (lexeme : Bytes) : Option Json :=
  match integerOf lexeme with
  | some n =>
    if -2 ^ 63 ≤ n ∧ n < 2 ^ 64 then some (.numberInteger n)
    else (readFloat strtod lexeme).map .numberFloat
  | none => (readFloat strtod lexeme).map .numberFloat

private theorem tokenValue_valueFloat (strtod : Bytes → BitVec 64) (lexeme : Bytes) :
    tokenValue (.valueFloat (strtod lexeme)) = (readFloat strtod lexeme).map .numberFloat := by
  rw [readFloat]
  by_cases h : isfinite (strtod lexeme) = true
  · rw [if_pos h]
    exact if_pos h
  · rw [if_neg h]
    exact if_neg h

/-- The state of `scan_number` after the first character. -/
def firstState (c : UInt8) : NumberState :=
  if c = 45 then .minus else if c = 48 then .zero else .any1

/-- A number is what the states of the scanner accept. -/
theorem isNumber_cons {c : UInt8} {bs : Bytes} (hc : c = 45 ∨ Decimal.isDigit c = true) :
    isNumber (c :: bs) = (firstState c).accepts bs := by
  rw [isNumber, firstState]
  split
  · rfl
  · next hminus =>
    rw [isUnsigned]
    split
    · rfl
    · rw [if_pos (hc.resolve_left hminus)]
      rfl

/-- The conversion of a number is that of its spelling. -/
theorem convert_value {strtod : Bytes → BitVec 64} {c : UInt8} {bs : Bytes}
    (hc : c = 45 ∨ Decimal.isDigit c = true) (h : (firstState c).accepts bs = true) :
    tokenValue (convert strtod (c :: bs)
      (typeAfter (firstState c) ((firstState c).type .unsigned) bs)) =
        numberOf strtod (c :: bs) := by
  have hfirst : firstState c = .minus ∨ firstState c = .zero ∨ firstState c = .any1 := by
    rw [firstState]
    split_ifs <;> simp
  rw [typeAfter_integral hfirst h, numberOf, integerOf]
  by_cases hminus : c = 45
  · rw [hminus, if_pos rfl]
    have htype : (firstState 45).type .unsigned = .integer := rfl
    rw [htype]
    by_cases hall : bs.all Decimal.isDigit = true
    · rw [if_pos hall, if_pos hall, convert, List.tail_cons]
      dsimp only
      by_cases hle : Decimal.value bs ≤ 2 ^ 63
      · rw [if_pos hle, if_pos ⟨by omega, by omega⟩]
        rfl
      · rw [if_neg hle, if_neg (by omega), tokenValue_valueFloat]
    · rw [if_neg hall, if_neg hall, convert, tokenValue_valueFloat]
  · have hdigit := hc.resolve_left hminus
    have htype : (firstState c).type .unsigned = .unsigned := by
      rw [firstState, if_neg hminus]
      split <;> rfl
    rw [htype, if_neg hminus, List.all_cons, hdigit, Bool.true_and]
    by_cases hall : bs.all Decimal.isDigit = true
    · rw [if_pos hall, if_pos hall, convert]
      dsimp only
      by_cases hlt : Decimal.value (c :: bs) < 2 ^ 64
      · rw [if_pos hlt, if_pos ⟨by omega, by omega⟩]
        rfl
      · rw [if_neg hlt, if_neg (by omega), tokenValue_valueFloat]
    · rw [if_neg hall, if_neg hall, convert, tokenValue_valueFloat]

/-- A number of the grammar goes as far as it can. -/
theorem number_eq_some_iff {bs rest : Bytes} {tree : Tree} : number bs = some (tree, rest) ↔
    ∃ lexeme, tree = .number lexeme ∧ isNumber lexeme = true ∧ bs = lexeme ++ rest ∧ Stops rest := by
  constructor
  · intro h
    simp only [number] at h
    split at h
    · next hnumber =>
      cases h
      refine ⟨_, rfl, hnumber, List.takeWhile_append_dropWhile.symm, fun c hc => ?_⟩
      have hhead := List.head?_dropWhile_not isNumberByte bs
      rw [Option.mem_def.mp hc] at hhead
      exact hhead
    · cases h
  · rintro ⟨lexeme, rfl, hnumber, rfl, hstops⟩
    have hbytes := isNumberByte_of_isNumber hnumber
    simp only [number, List.takeWhile_append_of_pos hbytes, List.dropWhile_append_of_pos hbytes,
      takeWhile_of_stops hstops, dropWhile_of_stops hstops, List.append_nil, hnumber, if_true]

end ChatRoom.Nlohmann
