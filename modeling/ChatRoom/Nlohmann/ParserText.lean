import ChatRoom.Core.JsonCombinators
import ChatRoom.Nlohmann.NumberText
import ChatRoom.Nlohmann.Parser

/-!
# What parse accepts

The loop of the parser, with its stack of open containers, reads what a parser does that calls
itself for the parts of a value. From there `parse` is compared with the grammar: the texts of
the grammar are parsed, each to the value of its tree, and nothing else is accepted.
-/

namespace ChatRoom.Nlohmann

open ChatRoom.Core Chat JsonText

/-! ## The value of a tree -/

/-- A member of an object that is read: a repeated key keeps the last value. -/
def putMember (members : SortedMap Bytes Json) (m : Bytes × Json) : SortedMap Bytes Json :=
  (members.insert m.1 .null).assign m.1 m.2

/-- An object with the members that are read in this order. -/
def objectOf (members : List (Bytes × Json)) : Json :=
  .object (members.foldl putMember SortedMap.empty).entries

mutual

/-- The value of a tree, if none of its numbers is beyond the range of a `double`. -/
def ofTree (strtod : Bytes → BitVec 64) : Tree → Option Json
  | .null => some .null
  | .boolean b => some (.boolean b)
  | .number lexeme => numberOf strtod lexeme
  | .string s => some (.string s)
  | .array elements => (ofElements strtod elements).map .array
  | .object members => (ofMembers strtod members).map objectOf

/-- The values of the elements of an array. -/
def ofElements (strtod : Bytes → BitVec 64) : List Tree → Option (List Json)
  | [] => some []
  | tree :: rest =>
    (ofTree strtod tree).bind fun j => (ofElements strtod rest).map fun js => j :: js

/-- The values of the members of an object, repeated keys included. -/
def ofMembers (strtod : Bytes → BitVec 64) : List (Bytes × Tree) → Option (List (Bytes × Json))
  | [] => some []
  | (key, tree) :: rest =>
    (ofTree strtod tree).bind fun j => (ofMembers strtod rest).map fun js => (key, j) :: js

end

variable {strtod : Bytes → BitVec 64}

/-- The elements are converted one after the other. -/
theorem ofElements_eq (elements : List Tree) :
    ofElements strtod elements = elements.mapM (ofTree strtod) := by
  induction elements with
  | nil => rfl
  | cons tree rest ih => rw [ofElements, mapM_cons_eq, ih]

/-- The members are converted one after the other. -/
theorem ofMembers_eq (members : List (Bytes × Tree)) :
    ofMembers strtod members = members.mapM (convertMember (ofTree strtod)) := by
  induction members with
  | nil => rfl
  | cons m rest ih =>
    rw [ofMembers, mapM_cons_eq, ih, convertMember, Option.bind_map]
    rfl

/-! ## A parser that calls itself -/

/-- What is read from a token that is no bracket. -/
def scalarValue (strtod : Bytes → BitVec 64) (c : UInt8) (rest : Bytes) : Option (Json × Bytes) :=
  (tokenValue (scanToken strtod c rest).1).map fun j => (j, (scanToken strtod c rest).2)

/-- The values of the texts, with the parsers of lists that the grammar has. -/
def descend (strtod : Bytes → BitVec 64) : Nat → Bytes → Option (Json × Bytes)
  | 0, _ => none
  | n + 1, bs =>
    match skip bs with
    | [] => none
    | c :: rest =>
      if c = 123 then
        (enclosed (member (descend strtod n)) 125 n rest).map fun r => (objectOf r.1, r.2)
      else if c = 91 then (enclosed (descend strtod n) 93 n rest).map fun r => (.array r.1, r.2)
      else scalarValue strtod c rest

private theorem scanLiteral_append (t : Token) (literal rest : Bytes) :
    scanLiteral t literal (literal ++ rest) = (t, rest) := by
  induction literal with
  | nil => rfl
  | cons c literal ih => rw [List.cons_append, scanLiteral, if_pos rfl, ih]

private theorem prefix_of_scanLiteral {t : Token} {literal bs : Bytes}
    (h : (scanLiteral t literal bs).1 ≠ .parseError) :
    bs = literal ++ (scanLiteral t literal bs).2 := by
  induction literal generalizing bs with
  | nil => rfl
  | cons c literal ih =>
    cases bs with
    | nil => exact absurd rfl h
    | cons b bs =>
      rw [scanLiteral] at h ⊢
      split at h
      · next hb =>
        rw [if_pos hb, hb, List.cons_append, ← ih h]
      · exact absurd rfl h

/-- A literal name is read by both. -/
theorem word_cons_eq_some_iff {c : UInt8} {w bs rest : Bytes} {tree a : Tree} :
    word (c :: w) tree (c :: bs) = some (a, rest) ↔ a = tree ∧ bs = w ++ rest := by
  rw [word]
  constructor
  · intro h
    split at h
    · next hprefix =>
      obtain ⟨left, hleft⟩ := List.isPrefixOf_iff_prefix.mp hprefix
      rw [List.cons_append] at hleft
      obtain rfl := List.tail_eq_of_cons_eq hleft
      rw [← List.cons_append, List.drop_left] at h
      cases h
      exact ⟨rfl, rfl⟩
    · cases h
  · rintro ⟨rfl, rfl⟩
    rw [← List.cons_append, if_pos (List.isPrefixOf_iff_prefix.mpr (List.prefix_append ..)),
      List.drop_left]

private theorem scanToken_number {c : UInt8} (hc : c = 45 ∨ Decimal.isDigit c = true)
    (rest : Bytes) :
    scanToken strtod c rest = scanNumber strtod c rest := by
  have hne : ∀ k : UInt8, ¬(k = 45 ∨ Decimal.isDigit k = true) → c ≠ k := by
    rintro k hk rfl
    exact hk hc
  rw [scanToken, if_neg (hne 91 (by decide)), if_neg (hne 93 (by decide)),
    if_neg (hne 123 (by decide)), if_neg (hne 125 (by decide)), if_neg (hne 58 (by decide)),
    if_neg (hne 44 (by decide)), if_neg (hne 116 (by decide)), if_neg (hne 102 (by decide)),
    if_neg (hne 110 (by decide)), if_neg (hne 34 (by decide)), if_pos hc]

/-- A number is scanned from the state of its first character, and then converted. -/
theorem scanNumber_eq (c : UInt8) (bs : Bytes) : scanNumber strtod c bs =
    match scanNumberFrom (firstState c) ((firstState c).type .unsigned) bs with
    | some (lexeme, t, rest) => (convert strtod (c :: lexeme) t, rest)
    | none => (.parseError, []) := rfl

/-- A number of the grammar is a token of the lexer. -/
theorem scalarValue_number {c : UInt8} {bs rest : Bytes} {tree : Tree}
    (h : number (c :: bs) = some (tree, rest)) :
    scalarValue strtod c bs = (ofTree strtod tree).map fun j => (j, rest) := by
  obtain ⟨lexeme, rfl, hnumber, hsplit, hstops⟩ := number_eq_some_iff.mp h
  obtain ⟨d, front, rfl, hd⟩ := head_of_isNumber hnumber
  rw [List.cons_append] at hsplit
  obtain ⟨rfl, rfl⟩ := List.cons.inj hsplit
  rw [isNumber_cons hd] at hnumber
  rw [scalarValue, scanToken_number hd, scanNumber_eq, scanNumberFrom_append hnumber hstops,
    ofTree]
  dsimp only
  rw [convert_value hd hnumber]

/-- A token that is a number is one of the grammar, if it could not have gone on. -/
theorem number_of_scalarValue {c : UInt8} {bs rest : Bytes} {j : Json}
    (hc : c = 45 ∨ Decimal.isDigit c = true) (h : scalarValue strtod c bs = some (j, rest))
    (hstops : Stops rest) :
    ∃ tree, number (c :: bs) = some (tree, rest) ∧ ofTree strtod tree = some j := by
  rw [scalarValue, scanToken_number hc, scanNumber_eq] at h
  cases hscan : scanNumberFrom (firstState c) ((firstState c).type .unsigned) bs with
  | none =>
    rw [hscan] at h
    cases h
  | some r =>
    obtain ⟨front, t, rest'⟩ := r
    rw [hscan] at h
    obtain ⟨j', hj', heq⟩ := Option.map_eq_some_iff.mp h
    cases heq
    obtain ⟨hsplit, haccepts, htype⟩ := scanNumberFrom_eq hscan
    rw [htype, convert_value hc haccepts] at hj'
    refine ⟨.number (c :: front), number_eq_some_iff.mpr
      ⟨c :: front, rfl, ?_, by rw [hsplit]; rfl, hstops⟩, hj'⟩
    rw [isNumber_cons hc, haccepts]

/-- A string of the grammar is scanned as one. -/
theorem scanToken_string {bs rest s : Bytes} (h : JsonText.string bs = some (s, rest)) :
    scanToken strtod 34 bs = (.valueString s, rest) := by
  rw [← scanString_eq] at h
  simp [scanToken, h]

/-- What is no string of the grammar is an error. -/
theorem scanToken_not_string {bs : Bytes} (h : JsonText.string bs = none) :
    scanToken strtod 34 bs = (.parseError, []) := by
  rw [← scanString_eq] at h
  simp [scanToken, h]

/-- The scalars of the grammar are tokens of the lexer. -/
theorem scalarValue_maps {c : UInt8} {bs rest : Bytes} {tree : Tree}
    (h : scalar c bs = some (tree, rest)) :
    scalarValue strtod c bs = (ofTree strtod tree).map fun j => (j, rest) := by
  rw [scalar] at h
  split_ifs at h with hquote hnull htrue hfalse
  · obtain ⟨r, hr, heq⟩ := Option.map_eq_some_iff.mp h
    cases heq
    rw [hquote, scalarValue, scanToken_string hr]
    rfl
  · subst hnull
    obtain ⟨rfl, rfl⟩ := word_cons_eq_some_iff.mp h
    have htoken : scanToken strtod 110 ([117, 108, 108] ++ rest) = (.literalNull, rest) :=
      scanLiteral_append _ _ _
    rw [scalarValue, htoken]
    rfl
  · subst htrue
    obtain ⟨rfl, rfl⟩ := word_cons_eq_some_iff.mp h
    have htoken : scanToken strtod 116 ([114, 117, 101] ++ rest) = (.literalTrue, rest) :=
      scanLiteral_append _ _ _
    rw [scalarValue, htoken]
    rfl
  · subst hfalse
    obtain ⟨rfl, rfl⟩ := word_cons_eq_some_iff.mp h
    have htoken : scanToken strtod 102 ([97, 108, 115, 101] ++ rest) = (.literalFalse, rest) :=
      scanLiteral_append _ _ _
    rw [scalarValue, htoken]
    rfl
  · exact scalarValue_number h

/-- No value begins with any other byte. -/
theorem scalarValue_none {c : UInt8} (hquote : c ≠ 34) (hnull : c ≠ 110) (htrue : c ≠ 116)
    (hfalse : c ≠ 102) (hnumber : ¬(c = 45 ∨ Decimal.isDigit c = true)) (bs : Bytes) :
    scalarValue strtod c bs = none := by
  have hstructural : ∀ t rest, tokenValue t = none → scanToken strtod c bs = (t, rest) →
      scalarValue strtod c bs = none := by
    intro t rest ht hscan
    rw [scalarValue, hscan]
    dsimp only
    rw [ht]
    rfl
  by_cases h91 : c = 91
  · exact hstructural .beginArray bs rfl (by rw [h91]; rfl)
  by_cases h93 : c = 93
  · exact hstructural .endArray bs rfl (by rw [h93]; rfl)
  by_cases h123 : c = 123
  · exact hstructural .beginObject bs rfl (by rw [h123]; rfl)
  by_cases h125 : c = 125
  · exact hstructural .endObject bs rfl (by rw [h125]; rfl)
  by_cases h58 : c = 58
  · exact hstructural .nameSeparator bs rfl (by rw [h58]; rfl)
  by_cases h44 : c = 44
  · exact hstructural .valueSeparator bs rfl (by rw [h44]; rfl)
  by_cases h0 : c = 0
  · exact hstructural .endOfInput bs rfl (by rw [h0]; rfl)
  · refine hstructural .parseError bs rfl ?_
    rw [scanToken, if_neg h91, if_neg h93, if_neg h123, if_neg h125, if_neg h58, if_neg h44,
      if_neg htrue, if_neg hfalse, if_neg hnull, if_neg hquote, if_neg hnumber, if_neg h0]

private theorem word_of_scalarValue {c : UInt8} {t : Token} {w bs rest : Bytes} {tree : Tree}
    {j j' : Json}
    (hscan : scanToken strtod c bs = scanLiteral t w bs) (ht : tokenValue t = some j')
    (htree : ofTree strtod tree = some j') (h : scalarValue strtod c bs = some (j, rest)) :
    word (c :: w) tree (c :: bs) = some (tree, rest) ∧ ofTree strtod tree = some j := by
  rw [scalarValue, hscan] at h
  obtain ⟨v, hv, heq⟩ := Option.map_eq_some_iff.mp h
  have hread : (scanLiteral t w bs).1 ≠ .parseError := by
    intro herror
    rw [herror] at hv
    cases hv
  have hsplit := prefix_of_scanLiteral hread
  rw [hsplit, scanLiteral_append] at hv heq
  dsimp only at hv heq
  rw [ht] at hv
  cases hv
  cases heq
  exact ⟨word_cons_eq_some_iff.mpr ⟨rfl, hsplit⟩, htree⟩

/-- A token that is a value is a scalar of the grammar, where no number goes on. -/
theorem scalarValue_lifts {c : UInt8} {bs rest : Bytes} {j : Json}
    (h : scalarValue strtod c bs = some (j, rest)) (hstops : Stops rest) :
    ∃ tree, scalar c bs = some (tree, rest) ∧ ofTree strtod tree = some j := by
  rw [scalar]
  by_cases hquote : c = 34
  · rw [if_pos hquote]
    subst hquote
    cases hscan : JsonText.string bs with
    | none =>
      rw [scalarValue, scanToken_not_string hscan] at h
      cases h
    | some r =>
      rw [scalarValue, scanToken_string hscan] at h
      cases h
      exact ⟨.string r.1, rfl, rfl⟩
  rw [if_neg hquote]
  by_cases hnull : c = 110
  · rw [if_pos hnull]
    subst hnull
    exact ⟨.null, word_of_scalarValue (w := [117, 108, 108]) rfl rfl rfl h⟩
  rw [if_neg hnull]
  by_cases htrue : c = 116
  · rw [if_pos htrue]
    subst htrue
    exact ⟨.boolean true, word_of_scalarValue (w := [114, 117, 101]) rfl rfl rfl h⟩
  rw [if_neg htrue]
  by_cases hfalse : c = 102
  · rw [if_pos hfalse]
    subst hfalse
    exact ⟨.boolean false, word_of_scalarValue (w := [97, 108, 115, 101]) rfl rfl rfl h⟩
  rw [if_neg hfalse]
  by_cases hc : c = 45 ∨ Decimal.isDigit c = true
  · exact number_of_scalarValue hc h hstops
  · rw [scalarValue_none hquote hnull htrue hfalse hc] at h
    cases h

/-! ## The grammar -/

/-- Nothing is read from white space. -/
theorem descend_blank (n : Nat) : Blank (descend strtod n) := by
  intro bs hbs
  cases n with
  | zero => rfl
  | succ n => rw [descend, hbs]

/-- A brace begins an object. -/
theorem descend_of_brace {bs later : Bytes} (h : skip bs = 123 :: later) (n : Nat) :
    descend strtod (n + 1) bs = (enclosed (member (descend strtod n)) 125 n later).map fun r =>
      (objectOf r.1, r.2) := by
  rw [descend, h]
  rfl

/-- A bracket begins an array. -/
theorem descend_of_bracket {bs later : Bytes} (h : skip bs = 91 :: later) (n : Nat) :
    descend strtod (n + 1) bs =
      (enclosed (descend strtod n) 93 n later).map fun r => (.array r.1, r.2) := by
  rw [descend, h]
  rfl

/-- What no bracket and no brace begins is a scalar. -/
theorem descend_of_scalar {c : UInt8} {bs later : Bytes} (h : skip bs = c :: later)
    (hbrace : c ≠ 123) (hbracket : c ≠ 91) (n : Nat) :
    descend strtod (n + 1) bs = scalarValue strtod c later := by
  rw [descend, h]
  simp only [if_neg hbrace, if_neg hbracket]

/-- What the grammar reads is read as the value of its tree. -/
theorem descend_maps (strtod : Bytes → BitVec 64) (n : Nat) :
    Maps (ofTree strtod) (value n) (descend strtod n) := by
  induction n with
  | zero =>
    intro bs tree rest h
    cases h
  | succ n ih =>
    intro bs tree rest h
    cases hskip : skip bs with
    | nil =>
      rw [value_blank _ bs hskip] at h
      cases h
    | cons c later =>
      by_cases hbrace : c = 123
      · subst hbrace
        rw [value_brace hskip] at h
        obtain ⟨r, hr, heq⟩ := Option.map_eq_some_iff.mp h
        cases heq
        rw [descend_of_brace hskip, enclosed_maps (member_maps ih) n _ _ _ hr, ofTree,
          ofMembers_eq, Option.map_map, Option.map_map]
        rfl
      by_cases hbracket : c = 91
      · subst hbracket
        rw [value_of_bracket hskip] at h
        obtain ⟨r, hr, heq⟩ := Option.map_eq_some_iff.mp h
        cases heq
        rw [descend_of_bracket hskip, enclosed_maps ih n _ _ _ hr, ofTree, ofElements_eq,
          Option.map_map, Option.map_map]
        rfl
      · rw [value_of_scalar hskip hbrace hbracket] at h
        rw [descend_of_scalar hskip hbrace hbracket, scalarValue_maps h]

/-- What is read as a value is the text of a tree, where no number goes on. -/
theorem descend_lifts (strtod : Bytes → BitVec 64) (n : Nat) :
    Lifts (ofTree strtod) (value n) (descend strtod n) := by
  induction n with
  | zero =>
    intro bs j rest h
    cases h
  | succ n ih =>
    intro bs j rest h hstops
    cases hskip : skip bs with
    | nil =>
      rw [descend_blank _ bs hskip] at h
      cases h
    | cons c later =>
      by_cases hbrace : c = 123
      · subst hbrace
        rw [descend_of_brace hskip] at h
        obtain ⟨r, hr, heq⟩ := Option.map_eq_some_iff.mp h
        cases heq
        obtain ⟨members, hmembers, hall⟩ :=
          enclosed_lifts (member_lifts ih) rfl n _ _ _ hr hstops
        refine ⟨.object members, by rw [value_brace hskip, hmembers]; rfl, ?_⟩
        rw [ofTree, ofMembers_eq, hall]
        rfl
      by_cases hbracket : c = 91
      · subst hbracket
        rw [descend_of_bracket hskip] at h
        obtain ⟨r, hr, heq⟩ := Option.map_eq_some_iff.mp h
        cases heq
        obtain ⟨elements, helements, hall⟩ := enclosed_lifts ih rfl n _ _ _ hr hstops
        refine ⟨.array elements, by rw [value_of_bracket hskip, helements]; rfl, ?_⟩
        rw [ofTree, ofElements_eq, hall]
        rfl
      · rw [descend_of_scalar hskip hbrace hbracket] at h
        obtain ⟨tree, htree, hof⟩ := scalarValue_lifts h hstops
        exact ⟨tree, by rw [value_of_scalar hskip hbrace hbracket, htree], hof⟩

/-- A value takes something off the text. -/
theorem descend_consumes (strtod : Bytes → BitVec 64) (n : Nat) :
    Consumes (descend strtod n) := by
  induction n with
  | zero =>
    intro bs j rest h
    cases h
  | succ n ih =>
    intro bs j rest h
    cases hskip : skip bs with
    | nil =>
      rw [descend_blank _ bs hskip] at h
      cases h
    | cons c later =>
      have hlater := length_of_skip hskip
      by_cases hbrace : c = 123
      · subst hbrace
        rw [descend_of_brace hskip] at h
        obtain ⟨r, hr, heq⟩ := Option.map_eq_some_iff.mp h
        cases heq
        exact Nat.lt_trans (enclosed_consumes (member_consumes ih) 125 n _ _ _ hr) hlater
      by_cases hbracket : c = 91
      · subst hbracket
        rw [descend_of_bracket hskip] at h
        obtain ⟨r, hr, heq⟩ := Option.map_eq_some_iff.mp h
        cases heq
        exact Nat.lt_trans (enclosed_consumes ih 93 n _ _ _ hr) hlater
      · rw [descend_of_scalar hskip hbrace hbracket] at h
        obtain ⟨j', hj', heq⟩ := Option.map_eq_some_iff.mp h
        cases heq
        exact Nat.lt_of_le_of_lt (length_scanToken strtod c later) hlater

end ChatRoom.Nlohmann
