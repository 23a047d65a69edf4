import ChatRoom.Base.ConfigFileReader
import ChatRoom.Core.SortedMap
import ChatRoom.Nlohmann.Lexer

/-!
# The parser

`parser::sax_parse_internal` of the JSON library with `json_sax_dom_parser` as its handler, as
`json::parse` calls them: no callback, no comments, and an exception for every error. The parser
is a loop over the tokens with a stack that says of each open bracket whether it is that of an
array. The handler keeps the open arrays and objects, the innermost first; a container is put
into its place when it is closed.
-/

namespace ChatRoom.Nlohmann

open ChatRoom.Core ChatRoom.Base Chat

/-- A container that is being filled; an object has a reference to the element of a key. -/
inductive Frame where
  | array (elements : List Json)
  | object (members : SortedMap Bytes Json) (key : Bytes)

/-- The state of the parser with its lexer and the DOM under construction. `states` has a `true` for
each open array. -/
structure Parser where
  /-- What is left of the input. -/
  rest : Bytes
  lastToken : Token
  states : List Bool
  root : Json
  refStack : List Frame
  skipToStateEvaluation : Bool

/-- How an iteration of the loop ends. -/
inductive Outcome where
  | next (p : Parser)
  | done (p : Parser)
  | error

namespace Parser

variable (strtod : Bytes → BitVec 64)

/-- `get_token`. -/
def getToken (p : Parser) : Parser :=
  { p with lastToken := (scan strtod p.rest).1, rest := (scan strtod p.rest).2 }

/-- `handle_value`: a value goes to the root, to the end of an array or to the last key of an
object. -/
def handleValue (p : Parser) (v : Json) : Parser :=
  match p.refStack with
  | [] => { p with root := v }
  | .array elements :: outer => { p with refStack := .array (elements ++ [v]) :: outer }
  | .object members key :: outer =>
    { p with refStack := .object (members.assign key v) key :: outer }

/-- `start_object`. -/
def startObject (p : Parser) : Parser :=
  { p with refStack := .object SortedMap.empty [] :: p.refStack }

/-- `operator[]` adds a null at a new key. -/
def key (p : Parser) (key : Bytes) : Parser :=
  match p.refStack with
  | .object members _ :: outer =>
    { p with refStack := .object (members.insert key .null) key :: outer }
  | _ => p

/-- `end_object`: the object is complete and goes where a value would. -/
def endObject (p : Parser) : Parser :=
  match p.refStack with
  | .object members _ :: outer => { p with refStack := outer }.handleValue (.object members.entries)
  | _ => p

/-- `start_array`. -/
def startArray (p : Parser) : Parser := { p with refStack := .array [] :: p.refStack }

/-- `end_array`. -/
def endArray (p : Parser) : Parser :=
  match p.refStack with
  | .array elements :: outer => { p with refStack := outer }.handleValue (.array elements)
  | _ => p

/-- After a key has been read: the separator, and the first token of the value. -/
def memberValue (p : Parser) (k : Bytes) (states : List Bool) : Outcome :=
  let p := (p.key k).getToken strtod
  if p.lastToken = .nameSeparator then .next ({ p with states := states }.getToken strtod)
  else .error

/-- The state evaluation, which follows a value. -/
def evaluate (p : Parser) : Outcome :=
  match p.states with
  | [] => .done p
  | true :: outer =>
    let p := p.getToken strtod
    match p.lastToken with
    | .valueSeparator => .next (p.getToken strtod)
    | .endArray => .next { p.endArray with states := outer, skipToStateEvaluation := true }
    | _ => .error
  | false :: outer =>
    let p := p.getToken strtod
    match p.lastToken with
    | .valueSeparator =>
      let p := p.getToken strtod
      match p.lastToken with
      | .valueString k => p.memberValue strtod k p.states
      | _ => .error
    | .endObject => .next { p.endObject with states := outer, skipToStateEvaluation := true }
    | _ => .error

/-- One iteration of the loop. -/
def iterate (p : Parser) : Outcome :=
  if p.skipToStateEvaluation then evaluate strtod { p with skipToStateEvaluation := false }
  else
    match p.lastToken with
    | .beginObject =>
      let p := p.startObject.getToken strtod
      match p.lastToken with
      | .endObject => p.endObject.evaluate strtod
      | .valueString k => p.memberValue strtod k (false :: p.states)
      | _ => .error
    | .beginArray =>
      let p := p.startArray.getToken strtod
      if p.lastToken = .endArray then p.endArray.evaluate strtod
      else .next { p with states := true :: p.states }
    | .valueFloat x =>
      if isfinite x then (p.handleValue (.numberFloat x)).evaluate strtod else .error
    | .literalFalse => (p.handleValue (.boolean false)).evaluate strtod
    | .literalNull => (p.handleValue .null).evaluate strtod
    | .literalTrue => (p.handleValue (.boolean true)).evaluate strtod
    | .valueInteger n => (p.handleValue (.numberInteger n)).evaluate strtod
    | .valueString s => (p.handleValue (.string s)).evaluate strtod
    | .valueUnsigned n => (p.handleValue (.numberInteger n)).evaluate strtod
    | _ => .error

end Parser

/-! ## The loop ends -/

private theorem length_scanString {bs : Bytes} {r : Bytes × Bytes} (h : scanString bs = some r) :
    r.2.length < bs.length := by
  fun_induction scanString bs generalizing r with
  | case1 => cases h
  | case2 bs =>
    cases h
    exact Nat.lt_succ_self _
  | case3 bs hescape hne => cases h
  | case4 bs added rest hescape hne ih =>
    obtain ⟨r', hr', rfl⟩ := Option.map_eq_some_iff.mp h
    have hrest := ih hr'
    have hle := length_scanEscape hescape
    rw [List.length_cons]
    exact Nat.lt_succ_of_lt (Nat.lt_of_lt_of_le hrest hle)
  | case5 c bs h1 h2 h3 => cases h
  | case6 c bs h1 h2 h3 h4 ih =>
    obtain ⟨r', hr', rfl⟩ := Option.map_eq_some_iff.mp h
    have hrest : r'.2.length < bs.length := ih hr'
    exact Nat.lt_succ_of_lt hrest
  | case7 c bs h1 h2 h3 h4 hranges => cases h
  | case8 c bs h1 h2 h3 h4 ranges hranges hnext => cases h
  | case9 c bs h1 h2 h3 h4 ranges hranges added rest hnext ih =>
    obtain ⟨r', hr', rfl⟩ := Option.map_eq_some_iff.mp h
    have hrest := ih hr'
    have hle := length_nextByteInRange hnext
    rw [List.length_cons]
    exact Nat.lt_succ_of_lt (Nat.lt_of_lt_of_le hrest hle)

private theorem length_scanNumberFrom {s : NumberState} {t : NumberType} {bs : Bytes}
    {r : Bytes × NumberType × Bytes} (h : scanNumberFrom s t bs = some r) :
    r.2.2.length ≤ bs.length := by
  induction bs generalizing s t r with
  | nil =>
    rw [scanNumberFrom] at h
    split at h
    · cases h
      exact Nat.le_refl _
    · cases h
  | cons c bs ih =>
    rw [scanNumberFrom] at h
    split at h
    · obtain ⟨r', hr', rfl⟩ := Option.map_eq_some_iff.mp h
      have hle : r'.2.2.length ≤ bs.length := ih hr'
      exact Nat.le_succ_of_le hle
    · cases h
      exact Nat.le_refl _
    · cases h

private theorem length_scanNumber (strtod : Bytes → BitVec 64) (c : UInt8) (bs : Bytes) :
    (scanNumber strtod c bs).2.length ≤ bs.length := by
  rw [scanNumber]
  split
  · next lexeme t rest h => exact length_scanNumberFrom h
  · exact Nat.zero_le _

private theorem length_scanLiteral (t : Token) (literal bs : Bytes) :
    (scanLiteral t literal bs).2.length ≤ bs.length := by
  induction literal generalizing bs with
  | nil => exact Nat.le_refl _
  | cons c literal ih =>
    cases bs with
    | nil => exact Nat.le_refl _
    | cons b bs =>
      rw [scanLiteral]
      split
      · exact Nat.le_succ_of_le (ih bs)
      · exact Nat.le_succ _

private theorem length_ite_le {c : Prop} [Decidable c] {r r' : Token × Bytes} {n : Nat}
    (h : r.2.length ≤ n) (h' : r'.2.length ≤ n) : (if c then r else r').2.length ≤ n := by
  split
  · exact h
  · exact h'

/-- A token leaves no more than there was. -/
theorem length_scanToken (strtod : Bytes → BitVec 64) (c : UInt8) (rest : Bytes) :
    (scanToken strtod c rest).2.length ≤ rest.length := by
  have hsame := Nat.le_refl rest.length
  have hliteral : ∀ t literal, (scanLiteral t literal rest).2.length ≤ rest.length := fun t literal =>
    length_scanLiteral t literal rest
  rw [scanToken]
  iterate 6 refine length_ite_le hsame ?_
  iterate 3 refine length_ite_le (hliteral _ _) ?_
  refine length_ite_le ?_ (length_ite_le (length_scanNumber _ _ _) (length_ite_le hsame hsame))
  split
  · next h => exact Nat.le_of_lt (length_scanString h)
  · exact Nat.zero_le _

/-- A token that is not the end of the input takes something from it. -/
theorem length_scan (strtod : Bytes → BitVec 64) (bs : Bytes) :
    (scan strtod bs).2.length < bs.length ∨
      (scan strtod bs).2.length ≤ bs.length ∧ (scan strtod bs).1 = .endOfInput := by
  have hskip := (List.dropWhile_suffix isWhitespace (l := bs)).length_le
  rw [scan]
  split
  · exact Or.inr ⟨Nat.zero_le _, rfl⟩
  · next c rest hrest =>
    rw [hrest, List.length_cons] at hskip
    exact Or.inl (Nat.lt_of_le_of_lt (length_scanToken strtod c rest) hskip)

namespace Parser

variable {strtod : Bytes → BitVec 64} {p p' : Parser}

/-- What is left of the input, twice, and an array that has just been opened. -/
def measure (p : Parser) : Nat :=
  2 * p.rest.length + if p.skipToStateEvaluation = false ∧ p.lastToken = .beginArray then 1 else 0

/-- A value takes nothing off the input. -/
@[simp] theorem rest_handleValue (p : Parser) (v : Json) : (p.handleValue v).rest = p.rest := by
  rw [handleValue]
  split <;> rfl

/-- A value closes no bracket. -/
@[simp] theorem states_handleValue (p : Parser) (v : Json) :
    (p.handleValue v).states = p.states := by
  rw [handleValue]
  split <;> rfl

/-- A value does not change where the loop goes on. -/
@[simp] theorem skip_handleValue (p : Parser) (v : Json) :
    (p.handleValue v).skipToStateEvaluation = p.skipToStateEvaluation := by
  rw [handleValue]
  split <;> rfl

/-- A key takes nothing off the input. -/
@[simp] theorem rest_key (p : Parser) (k : Bytes) : (p.key k).rest = p.rest := by
  rw [key]
  split <;> rfl

/-- The end of an object takes nothing off the input. -/
@[simp] theorem rest_endObject (p : Parser) : p.endObject.rest = p.rest := by
  rw [endObject]
  split
  · exact rest_handleValue _ _
  · rfl

/-- The end of an array takes nothing off the input. -/
@[simp] theorem rest_endArray (p : Parser) : p.endArray.rest = p.rest := by
  rw [endArray]
  split
  · exact rest_handleValue _ _
  · rfl

private theorem length_getToken (p : Parser) : (p.getToken strtod).rest.length < p.rest.length ∨
    (p.getToken strtod).rest.length ≤ p.rest.length ∧
      (p.getToken strtod).lastToken = .endOfInput :=
  length_scan strtod p.rest

private theorem length_getToken_le (p : Parser) : (p.getToken strtod).rest.length ≤ p.rest.length :=
  (length_getToken p).elim Nat.le_of_lt And.left

/-- A token that the parser goes on with has taken something. -/
theorem length_getToken_lt {t : Token} (h : (p.getToken strtod).lastToken = t)
    (ht : t ≠ .endOfInput) : (p.getToken strtod).rest.length < p.rest.length :=
  (length_getToken p).resolve_right fun hend => ht (h.symm.trans hend.2)

private theorem measure_le (p : Parser) : p.measure ≤ 2 * p.rest.length + 1 := by
  rw [measure]
  split <;> omega

private theorem le_measure (p : Parser) : 2 * p.rest.length ≤ p.measure := Nat.le_add_right _ _

private theorem rest_memberValue {k : Bytes} {states : List Bool}
    (h : p.memberValue strtod k states = .next p') : p'.rest.length < p.rest.length := by
  rw [memberValue] at h
  split at h
  · next hseparator =>
    cases h
    have hsep := length_getToken_lt hseparator nofun
    rw [rest_key] at hsep
    exact Nat.lt_of_le_of_lt (length_getToken_le _) hsep
  · cases h

private theorem rest_evaluate (h : p.evaluate strtod = .next p') :
    p'.rest.length < p.rest.length := by
  rw [evaluate] at h
  split at h
  · cases h
  · dsimp only at h
    split at h
    · next hcomma =>
      cases h
      exact Nat.lt_of_le_of_lt (length_getToken_le _) (length_getToken_lt hcomma nofun)
    · next hend =>
      cases h
      have hlt := length_getToken_lt hend nofun
      rw [← rest_endArray] at hlt
      exact hlt
    · cases h
  · dsimp only at h
    split at h
    · next hcomma =>
      have hlt := length_getToken_lt hcomma nofun
      split at h
      · exact Nat.lt_trans (rest_memberValue h)
          (Nat.lt_of_le_of_lt (length_getToken_le _) hlt)
      · cases h
    · next hend =>
      cases h
      have hlt := length_getToken_lt hend nofun
      rw [← rest_endObject] at hlt
      exact hlt
    · cases h

private theorem measure_lt_of_rest (h : p'.rest.length < p.rest.length) :
    p'.measure < p.measure := by
  have hle := p'.measure_le
  have hge := p.le_measure
  omega

/-- Every iteration that does not end the loop uses the input up. -/
theorem measure_iterate (h : p.iterate strtod = .next p') : p'.measure < p.measure := by
  have hvalue : ∀ v, (p.handleValue v).evaluate strtod = .next p' → p'.measure < p.measure := by
    intro v hv
    have hlt := rest_evaluate hv
    rw [rest_handleValue] at hlt
    exact measure_lt_of_rest hlt
  rw [iterate] at h
  by_cases hskip : p.skipToStateEvaluation = true
  · rw [if_pos hskip] at h
    exact measure_lt_of_rest (rest_evaluate (p := { p with skipToStateEvaluation := false }) h)
  rw [if_neg hskip] at h
  cases htoken : p.lastToken with
  | beginObject =>
    simp only [htoken] at h
    have hle := @length_getToken_le strtod p.startObject
    split at h
    · next hend =>
      have hlt := rest_evaluate h
      rw [rest_endObject] at hlt
      exact measure_lt_of_rest (Nat.lt_of_lt_of_le hlt hle)
    · next k hkey => exact measure_lt_of_rest (Nat.lt_of_lt_of_le (rest_memberValue h) hle)
    · cases h
  | beginArray =>
    simp only [htoken] at h
    have hgot := @length_getToken strtod p.startArray
    split at h
    · have hlt := rest_evaluate h
      rw [rest_endArray] at hlt
      exact measure_lt_of_rest (Nat.lt_of_lt_of_le hlt (length_getToken_le _))
    · have hrest : p.startArray.rest = p.rest := rfl
      have hmeasure : p.measure = 2 * p.rest.length + 1 := by
        rw [measure, if_pos ⟨Bool.eq_false_iff.mpr hskip, htoken⟩]
      rw [hrest] at hgot
      obtain rfl := Outcome.next.inj h
      rcases hgot with hlt | ⟨hle, hend⟩
      · have hle := measure_le { p.startArray.getToken strtod with
          states := true :: (p.startArray.getToken strtod).states }
        dsimp only at hle
        omega
      · rw [hmeasure, measure]
        dsimp only
        rw [if_neg fun hboth => Token.noConfusion (hend.symm.trans hboth.2)]
        omega
  | valueFloat x =>
    simp only [htoken] at h
    split at h
    · exact hvalue _ h
    · cases h
  | literalFalse =>
    rw [htoken] at h
    exact hvalue _ h
  | literalNull =>
    rw [htoken] at h
    exact hvalue _ h
  | literalTrue =>
    rw [htoken] at h
    exact hvalue _ h
  | valueInteger n =>
    rw [htoken] at h
    exact hvalue _ h
  | valueString s =>
    rw [htoken] at h
    exact hvalue _ h
  | valueUnsigned n =>
    rw [htoken] at h
    exact hvalue _ h
  | _ =>
    rw [htoken] at h
    cases h

end Parser

/-- The loop, which returns the parser at the end of a value. -/
def saxParseInternal (strtod : Bytes → BitVec 64) (p : Parser) : Option Parser :=
  match _h : p.iterate strtod with
  | .next p' => saxParseInternal strtod p'
  | .done p' => some p'
  | .error => none
termination_by p.measure
decreasing_by exact Parser.measure_iterate _h

/-- `json::parse`: the text must hold one value and nothing else. -/
def parse (strtod : Bytes → BitVec 64) (bs : Bytes) : Option Json :=
  (skipBom bs).bind fun bs =>
    let start : Parser := ⟨bs, .endOfInput, [], .null, [], false⟩
    (saxParseInternal strtod (start.getToken strtod)).bind fun p =>
      if (p.getToken strtod).lastToken = .endOfInput then some p.root else none

end ChatRoom.Nlohmann
