import ChatRoom.Nlohmann.ParserText

/-!
# The loop of the parser

What the loop does between two brackets is what it would do alone, whatever containers are open
around it: it reads one value, hands it to the innermost container and goes on with the state
evaluation. So the loop agrees with the parser that calls itself.
-/

namespace ChatRoom.Nlohmann

open ChatRoom.Core Chat JsonText

variable {strtod : Bytes → BitVec 64}

/-! ## Tokens and bytes -/

/-- The bytes that are tokens by themselves. -/
def structuralTokens : List (UInt8 × Token) :=
  [(91, .beginArray), (93, .endArray), (123, .beginObject), (125, .endObject),
    (58, .nameSeparator), (44, .valueSeparator)]

private theorem scanToken_structural {e : UInt8 × Token} (he : e ∈ structuralTokens)
    (rest : Bytes) :
    scanToken strtod e.1 rest = (e.2, rest) := by
  simp only [structuralTokens, List.mem_cons, List.not_mem_nil, or_false] at he
  rcases he with rfl | rfl | rfl | rfl | rfl | rfl <;> rfl

private theorem structuralTokens_inj : ∀ e ∈ structuralTokens, ∀ e' ∈ structuralTokens, e.2 = e'.2 →
    e.1 = e'.1 := by
  decide

private theorem scanLiteral_forall {P : Token → Prop} {t : Token} (ht : P t)
    (herror : P .parseError)
    (literal bs : Bytes) : P (scanLiteral t literal bs).1 := by
  induction literal generalizing bs with
  | nil => exact ht
  | cons c literal ih =>
    cases bs with
    | nil => exact herror
    | cons b bs =>
      rw [scanLiteral]
      split
      · exact ih bs
      · exact herror

private theorem scanNumber_forall {P : Token → Prop}
    (hnumber : ∀ lexeme t, P (convert strtod lexeme t))
    (herror : P .parseError) (c : UInt8) (bs : Bytes) : P (scanNumber strtod c bs).1 := by
  rw [scanNumber_eq]
  split
  · exact hnumber _ _
  · exact herror

/-- The tokens that a byte begins. -/
theorem scanToken_forall {P : Token → Prop} {c : UInt8} {rest : Bytes}
    (hstructural : ∀ e ∈ structuralTokens, c = e.1 → P e.2)
    (hliteral : P .literalTrue ∧ P .literalFalse ∧ P .literalNull)
    (hstring : ∀ s left, c = 34 → JsonText.string rest = some (s, left) → P (.valueString s))
    (hnumber : ∀ lexeme t, P (convert strtod lexeme t)) (hend : c = 0 → P .endOfInput)
    (herror : P .parseError) : P (scanToken strtod c rest).1 := by
  by_cases hmem : c ∈ structuralTokens.map Prod.fst
  · obtain ⟨e, hin, rfl⟩ := List.mem_map.mp hmem
    rw [scanToken_structural hin]
    exact hstructural e hin rfl
  by_cases hquote : c = 34
  · rw [hquote]
    cases h : JsonText.string rest with
    | none =>
      rw [scanToken_not_string h]
      exact herror
    | some r =>
      rw [scanToken_string h]
      exact hstring r.1 r.2 hquote h
  have hite : ∀ {Q : Prop} [Decidable Q] {r r' : Token × Bytes}, P r.1 → P r'.1 →
      P (if Q then r else r').1 := by
    intro Q _ r r' hr hr'
    split
    · exact hr
    · exact hr'
  simp only [structuralTokens, List.map_cons, List.map_nil, List.mem_cons, List.not_mem_nil,
    or_false, not_or] at hmem
  obtain ⟨h91, h93, h123, h125, h58, h44⟩ := hmem
  rw [scanToken, if_neg h91, if_neg h93, if_neg h123, if_neg h125, if_neg h58, if_neg h44,
    if_neg hquote]
  refine hite (scanLiteral_forall hliteral.1 herror _ _)
    (hite (scanLiteral_forall hliteral.2.1 herror _ _)
      (hite (scanLiteral_forall hliteral.2.2 herror _ _)
        (hite (scanNumber_forall hnumber herror c rest) ?_)))
  split
  · next h => exact hend h
  · exact herror

/-- A number becomes an integer of 64 bits or else a float. -/
theorem convert_forall {P : Token → Prop} (hunsigned : ∀ n < 2 ^ 64, P (.valueUnsigned n))
    (hinteger : ∀ n ≤ 2 ^ 63, P (.valueInteger (-(n : Nat)))) (hfloat : ∀ x, P (.valueFloat x))
    (lexeme : Bytes) (t : NumberType) : P (convert strtod lexeme t) := by
  cases t with
  | unsigned =>
    rw [convert]
    split
    · next h => exact hunsigned _ h
    · exact hfloat _
  | integer =>
    rw [convert]
    split
    · next h => exact hinteger _ h
    · exact hfloat _
  | float => exact hfloat _

private theorem scan_of_skip {bs later : Bytes} {c : UInt8} (h : skip bs = c :: later) :
    scan strtod bs = scanToken strtod c later := by
  have hskip : bs.dropWhile isWhitespace = c :: later := h
  rw [scan, hskip]

private theorem scan_of_blank {bs : Bytes} (h : skip bs = []) :
    scan strtod bs = (.endOfInput, []) := by
  have hskip : bs.dropWhile isWhitespace = [] := h
  rw [scan, hskip]

private theorem scanToken_ne {c d : UInt8} {t : Token} (he : (c, t) ∈ structuralTokens) (hd : d ≠ c)
    (rest : Bytes) : (scanToken strtod d rest).1 ≠ t := by
  have ht : ∀ t' : Token, t' ∉ structuralTokens.map Prod.snd → t' ≠ t := by
    rintro t' hnot rfl
    exact hnot (List.mem_map.mpr ⟨_, he, rfl⟩)
  refine scanToken_forall (P := fun t' => t' ≠ t) (fun e hin hde heq => ?_)
    ⟨ht _ (by decide), ht _ (by decide), ht _ (by decide)⟩
    (fun s _ _ _ => ht _ (by simp [structuralTokens])) (fun lexeme t' => ?_)
    (fun _ => ht _ (by decide)) (ht _ (by decide))
  · exact hd (hde.trans (structuralTokens_inj e hin _ he heq))
  · exact convert_forall (P := fun t' => t' ≠ t) (fun n _ => ht _ (by simp [structuralTokens]))
      (fun n _ => ht _ (by simp [structuralTokens])) (fun x => ht _ (by simp [structuralTokens]))
      lexeme t'

/-- A structural token is there exactly where its byte is. -/
theorem scan_structural {c : UInt8} {t : Token} (he : (c, t) ∈ structuralTokens) (bs : Bytes) :
    (scan strtod bs).1 = t ∧ expect c bs = some (scan strtod bs).2 ∨
      (scan strtod bs).1 ≠ t ∧ expect c bs = none := by
  cases hskip : skip bs with
  | nil =>
    rw [scan_of_blank hskip, expect, hskip]
    refine Or.inr ⟨?_, rfl⟩
    have hall : ∀ e ∈ structuralTokens, .endOfInput ≠ e.2 := by decide
    exact hall _ he
  | cons d later =>
    rw [scan_of_skip hskip, expect, hskip]
    by_cases hd : d = c
    · rw [hd, scanToken_structural he]
      exact Or.inl ⟨rfl, if_pos rfl⟩
    · exact Or.inr ⟨scanToken_ne he hd later, if_neg hd⟩

/-! ## Before and behind a value -/

/-- The root and the rest of the text when the loop returns. -/
def run (strtod : Bytes → BitVec 64) (p : Parser) : Option (Json × Bytes) :=
  (saxParseInternal strtod p).map fun q => (q.root, q.rest)

/-- What the loop makes of the outcome of one turn. -/
def outcome (strtod : Bytes → BitVec 64) : Outcome → Option (Json × Bytes)
  | .next p => run strtod p
  | .done p => some (p.root, p.rest)
  | .error => none

private theorem run_eq (p : Parser) : run strtod p = outcome strtod (p.iterate strtod) := by
  rw [run, saxParseInternal]
  split
  · next p' h =>
    rw [h]
    rfl
  · next p' h =>
    rw [h]
    rfl
  · next h =>
    rw [h]
    rfl

/-- A value is expected: its first token is read from the text. -/
def before (strtod : Bytes → BitVec 64) (p : Parser) (bs : Bytes) : Option (Json × Bytes) :=
  run strtod { p with
    rest := (scan strtod bs).2, lastToken := (scan strtod bs).1, skipToStateEvaluation := false }

/-- A value has been read, and the text goes on behind it. -/
def behind (strtod : Bytes → BitVec 64) (p : Parser) (bs : Bytes) : Option (Json × Bytes) :=
  outcome strtod (Parser.evaluate strtod { p with
    rest := bs, lastToken := .endOfInput, skipToStateEvaluation := false })

/-- The state evaluation reads a token of its own. -/
theorem outcome_evaluate {p : Parser} (h : p.skipToStateEvaluation = false) :
    outcome strtod (p.evaluate strtod) = behind strtod p p.rest := by
  obtain ⟨rest, lastToken, states, root, refStack, skip⟩ := p
  obtain rfl : skip = false := h
  rw [behind]
  cases states with
  | nil => rfl
  | cons inArray outer => cases inArray <;> rfl

private theorem behind_nil {p : Parser} (h : p.states = []) (bs : Bytes) :
    behind strtod p bs = some (p.root, bs) := by
  rw [behind, Parser.evaluate, h]
  rfl

/-! ## Inside an array -/

/-- The parser inside an array. -/
def inArray (p : Parser) (elements : List Json) : Parser :=
  { p with states := true :: p.states, refStack := .array elements :: p.refStack }

/-- Behind an element: another one, or the end of the array. -/
theorem behind_inArray (p : Parser) (elements : List Json) (bs : Bytes) :
    behind strtod (inArray p elements) bs =
      match expect 93 bs with
      | some rest => behind strtod (p.handleValue (.array elements)) rest
      | none => (expect 44 bs).bind fun rest => before strtod (inArray p elements) rest := by
  rw [behind, Parser.evaluate]
  dsimp only [inArray, Parser.getToken]
  rcases @scan_structural strtod 93 .endArray (by decide) bs with
    ⟨htoken, hexpect⟩ | ⟨htoken, hexpect⟩
  · rw [htoken, hexpect]
    dsimp only [outcome]
    rw [run_eq, Parser.iterate, if_pos rfl, outcome_evaluate rfl]
    obtain ⟨rest, lastToken, states, root, refStack, skip⟩ := p
    rcases refStack with _ | ⟨_ | _, outer⟩ <;> rfl
  · rw [hexpect]
    rcases @scan_structural strtod 44 .valueSeparator (by decide) bs with
      ⟨hcomma, hexpect'⟩ | ⟨hcomma, hexpect'⟩
    · rw [hcomma, hexpect']
      rfl
    · rw [hexpect']
      dsimp only [Option.bind_none]
      split
      · next h => exact absurd h hcomma
      · next h => exact absurd h htoken
      · rfl

/-- The elements of an array, from one of them on. -/
theorem before_inArray {n : Nat}
    (ih : ∀ p bs, bs.length ≤ n → before strtod p bs =
      (descend strtod n bs).bind fun r => behind strtod (p.handleValue r.1) r.2)
    (p : Parser) (m : Nat) : ∀ (bs : Bytes) (elements : List Json), bs.length ≤ m → bs.length ≤ n →
      before strtod (inArray p elements) bs = (sequence (descend strtod n) 93 m bs).bind fun r =>
        behind strtod (p.handleValue (.array (elements ++ r.1))) r.2 := by
  induction m with
  | zero =>
    intro bs elements hm hn
    obtain rfl := List.eq_nil_of_length_eq_zero (Nat.le_zero.mp hm)
    rw [ih _ _ hn, descend_blank n [] rfl]
    rfl
  | succ m ihm =>
    intro bs elements hm hn
    rw [ih _ _ hn, sequence_succ]
    cases hfirst : descend strtod n bs with
    | none => rfl
    | some r =>
      obtain ⟨j, left⟩ := r
      have hlt := descend_consumes strtod n _ _ _ hfirst
      have hhandle : (inArray p elements).handleValue j = inArray p (elements ++ [j]) := rfl
      rw [Option.bind_some, Option.bind_some, hhandle, behind_inArray]
      dsimp only
      cases hclose : expect 93 left with
      | some rest => rfl
      | none =>
        dsimp only
        cases hcomma : expect 44 left with
        | none => rfl
        | some rest =>
          have hshort := length_of_expect hcomma
          rw [Option.bind_some, Option.bind_some, ihm rest _ (by omega) (by omega),
            Option.bind_map]
          simp only [Function.comp_def, List.append_assoc, List.singleton_append]

/-! ## Inside an object -/

/-- The parser inside an object, at the element of a key. -/
def inObject (p : Parser) (members : SortedMap Bytes Json) (key : Bytes) : Parser :=
  { p with states := false :: p.states, refStack := .object members key :: p.refStack }

/-- A member is expected: its key, the separator, and what is before the value. -/
def beforeMember (strtod : Bytes → BitVec 64) (p : Parser) (members : SortedMap Bytes Json)
    (bs : Bytes) : Option (Json × Bytes) :=
  (expect 34 bs).bind fun after => (JsonText.string after).bind fun key =>
    (expect 58 key.2).bind fun rest =>
      before strtod (inObject p (members.insert key.1 .null) key.1) rest

/-- The token of a key is there exactly where a quote and a string are. -/
theorem scan_string (bs : Bytes) :
    (∃ key left, (expect 34 bs).bind JsonText.string = some (key, left) ∧
      scan strtod bs = (.valueString key, left)) ∨
    ((expect 34 bs).bind JsonText.string = none ∧ ∀ key, (scan strtod bs).1 ≠ .valueString key) := by
  cases hskip : skip bs with
  | nil =>
    rw [expect, hskip, scan_of_blank hskip]
    exact Or.inr ⟨rfl, by simp⟩
  | cons c later =>
    rw [scan_of_skip hskip]
    by_cases hquote : c = 34
    · subst hquote
      rw [expect_eq_some_iff.mpr hskip, Option.bind_some]
      cases h : JsonText.string later with
      | none =>
        rw [scanToken_not_string h]
        exact Or.inr ⟨rfl, by simp⟩
      | some r =>
        rw [scanToken_string h]
        exact Or.inl ⟨r.1, r.2, rfl, rfl⟩
    · rw [expect, hskip]
      dsimp only
      rw [if_neg hquote]
      refine Or.inr ⟨rfl, fun key => ?_⟩
      have hstructural : ∀ e ∈ structuralTokens, e.2 ≠ .valueString key := by
        simp [structuralTokens]
      exact scanToken_forall (P := fun t => t ≠ .valueString key) (fun e he _ => hstructural e he)
        (by simp) (fun _ _ hc => absurd hc hquote)
        (convert_forall (P := fun t => t ≠ .valueString key) (by simp) (by simp) (by simp))
        (by simp) (by simp)

private theorem outcome_memberValue {q p : Parser} {members : SortedMap Bytes Json} {key k : Bytes}
    (hroot : q.root = p.root) (hstack : q.refStack = .object members key :: p.refStack)
    (hskip : q.skipToStateEvaluation = false) :
    outcome strtod (q.memberValue strtod k (false :: p.states)) =
      (expect 58 q.rest).bind fun rest =>
        before strtod (inObject p (members.insert k .null) k) rest := by
  obtain ⟨rest, lastToken, states, root, refStack, skip⟩ := q
  obtain rfl : root = p.root := hroot
  obtain rfl : refStack = _ := hstack
  obtain rfl : skip = false := hskip
  rcases @scan_structural strtod 58 .nameSeparator (by decide) rest with
    ⟨htoken, hexpect⟩ | ⟨htoken, hexpect⟩
  · rw [hexpect]
    exact congrArg (outcome strtod) (if_pos htoken)
  · rw [hexpect]
    exact congrArg (outcome strtod) (if_neg htoken)

/-- Behind a member: another one, or the end of the object. -/
theorem behind_inObject (p : Parser) (members : SortedMap Bytes Json) (key bs : Bytes) :
    behind strtod (inObject p members key) bs =
      match expect 125 bs with
      | some rest => behind strtod (p.handleValue (.object members.entries)) rest
      | none => (expect 44 bs).bind fun rest => beforeMember strtod p members rest := by
  rw [behind, Parser.evaluate]
  dsimp only [inObject, Parser.getToken]
  rcases @scan_structural strtod 125 .endObject (by decide) bs with
    ⟨htoken, hexpect⟩ | ⟨htoken, hexpect⟩
  · rw [htoken, hexpect]
    dsimp only [outcome]
    rw [run_eq, Parser.iterate, if_pos rfl, outcome_evaluate rfl]
    obtain ⟨rest, lastToken, states, root, refStack, skip⟩ := p
    rcases refStack with _ | ⟨_ | _, outer⟩ <;> rfl
  · rw [hexpect]
    rcases @scan_structural strtod 44 .valueSeparator (by decide) bs with
      ⟨hcomma, hexpect'⟩ | ⟨hcomma, hexpect'⟩
    · rw [hcomma, hexpect']
      dsimp only [Option.bind_some]
      rw [beforeMember, ← Option.bind_assoc]
      rcases @scan_string strtod (scan strtod bs).2 with
        ⟨k, left, hstring, hscan⟩ | ⟨hstring, hscan⟩
      · rw [hstring, hscan]
        dsimp only [Option.bind_some]
        exact @outcome_memberValue strtod _ p members key k rfl rfl rfl
      · rw [hstring]
        split
        · next k h => exact absurd h (hscan k)
        · rfl
    · rw [hexpect']
      dsimp only [Option.bind_none]
      split
      · next h => exact absurd h hcomma
      · next h => exact absurd h htoken
      · rfl

/-- A member is read, and the text goes on behind its value. -/
theorem beforeMember_member {n : Nat}
    (ih : ∀ p bs, bs.length ≤ n → before strtod p bs =
      (descend strtod n bs).bind fun r => behind strtod (p.handleValue r.1) r.2)
    (p : Parser) (members : SortedMap Bytes Json) {bs : Bytes} (hn : bs.length ≤ n) :
    beforeMember strtod p members bs = (member (descend strtod n) bs).bind fun r =>
      behind strtod (inObject p (putMember members r.1) r.1.1) r.2 := by
  rw [beforeMember, member]
  cases hquote : expect 34 bs with
  | none => rfl
  | some after =>
    rw [Option.bind_some, Option.bind_some]
    cases hkey : JsonText.string after with
    | none => rfl
    | some key =>
      rw [Option.bind_some, Option.bind_some]
      cases hcolon : expect 58 key.2 with
      | none => rfl
      | some rest =>
        have h₁ := length_of_expect hquote
        have h₂ := string_consumes _ _ _ hkey
        have h₃ := length_of_expect hcolon
        rw [Option.bind_some, Option.bind_some, ih _ rest (by omega), Option.bind_map]
        rfl

/-- The members of an object, from one of them on. -/
theorem beforeMember_eq {n : Nat}
    (ih : ∀ p bs, bs.length ≤ n → before strtod p bs =
      (descend strtod n bs).bind fun r => behind strtod (p.handleValue r.1) r.2)
    (p : Parser) (m : Nat) : ∀ (bs : Bytes) (members : SortedMap Bytes Json), bs.length ≤ m →
      bs.length ≤ n → beforeMember strtod p members bs =
        (sequence (member (descend strtod n)) 125 m bs).bind fun r =>
          behind strtod (p.handleValue (.object (r.1.foldl putMember members).entries)) r.2 := by
  induction m with
  | zero =>
    intro bs members hm hn
    obtain rfl := List.eq_nil_of_length_eq_zero (Nat.le_zero.mp hm)
    rfl
  | succ m ihm =>
    intro bs members hm hn
    rw [beforeMember_member ih p members hn, sequence_succ]
    cases hfirst : member (descend strtod n) bs with
    | none => rfl
    | some r =>
      obtain ⟨first, left⟩ := r
      have hlt := member_consumes (descend_consumes strtod n) _ _ _ hfirst
      rw [Option.bind_some, Option.bind_some, behind_inObject]
      dsimp only
      cases hclose : expect 125 left with
      | some rest => rfl
      | none =>
        dsimp only
        cases hcomma : expect 44 left with
        | none => rfl
        | some rest =>
          have hshort := length_of_expect hcomma
          rw [Option.bind_some, Option.bind_some, ihm rest _ (by omega) (by omega),
            Option.bind_map]
          rfl

/-! ## Values -/

private theorem before_blank {bs : Bytes} (h : skip bs = []) (p : Parser) :
    before strtod p bs = none := by
  rw [before, scan_of_blank h, run_eq]
  rfl

private theorem outcome_scalar {p : Parser} (hskip : p.skipToStateEvaluation = false)
    (harray : p.lastToken ≠ .beginArray) (hobject : p.lastToken ≠ .beginObject) :
    outcome strtod (p.iterate strtod) =
      (tokenValue p.lastToken).bind fun v => behind strtod (p.handleValue v) p.rest := by
  have hvalue : ∀ v, outcome strtod ((p.handleValue v).evaluate strtod) =
      behind strtod (p.handleValue v) p.rest := by
    intro v
    rw [outcome_evaluate (by rw [Parser.skip_handleValue, hskip]), Parser.rest_handleValue]
  rw [Parser.iterate, if_neg (ne_true_of_eq_false hskip)]
  cases htoken : p.lastToken with
  | beginArray => exact absurd htoken harray
  | beginObject => exact absurd htoken hobject
  | valueFloat x =>
    dsimp only [tokenValue]
    by_cases hx : isfinite x = true
    · rw [if_pos hx, if_pos hx]
      exact hvalue _
    · rw [if_neg hx, if_neg hx]
      rfl
  | literalFalse => exact hvalue _
  | literalNull => exact hvalue _
  | literalTrue => exact hvalue _
  | valueInteger n => exact hvalue _
  | valueString s => exact hvalue _
  | valueUnsigned n => exact hvalue _
  | _ => rfl

private theorem enclosed_of_expect_none {α : Type} {item : Bytes → Option (α × Bytes)}
    {close : UInt8}
    (hblank : Blank item) {bs : Bytes} (h : expect close bs = none) (n : Nat) :
    enclosed item close n bs = sequence item close n bs := by
  cases hskip : skip bs with
  | nil =>
    rw [enclosed, hskip, sequence_blank hblank close n bs hskip]
  | cons c later =>
    refine enclosed_of_ne hskip ?_ n
    rintro rfl
    rw [expect_eq_some_iff.mpr hskip] at h
    cases h

private theorem skip_endArray (p : Parser) :
    p.endArray.skipToStateEvaluation = p.skipToStateEvaluation := by
  rw [Parser.endArray]
  split
  · exact Parser.skip_handleValue _ _
  · rfl

private theorem skip_endObject (p : Parser) :
    p.endObject.skipToStateEvaluation = p.skipToStateEvaluation := by
  rw [Parser.endObject]
  split
  · exact Parser.skip_handleValue _ _
  · rfl

/-- What the loop does behind an opening bracket. -/
theorem before_bracket (p : Parser) {bs later : Bytes} (h : skip bs = 91 :: later) :
    before strtod p bs =
      match expect 93 later with
      | some rest => behind strtod (p.handleValue (.array [])) rest
      | none => before strtod (inArray p []) later := by
  rw [before, scan_of_skip h, run_eq]
  rcases @scan_structural strtod 93 .endArray (by decide) later with
    ⟨htoken, hexpect⟩ | ⟨htoken, hexpect⟩
  · rw [hexpect, Parser.iterate, if_neg Bool.false_ne_true]
    refine (congrArg (outcome strtod) (if_pos htoken)).trans ?_
    rw [outcome_evaluate (skip_endArray _)]
    obtain ⟨rest, lastToken, states, root, refStack, skip⟩ := p
    rcases refStack with _ | ⟨_ | _, outer⟩ <;> rfl
  · rw [hexpect, Parser.iterate, if_neg Bool.false_ne_true]
    exact congrArg (outcome strtod) (if_neg htoken)

/-- What the loop does behind an opening brace. -/
theorem before_brace (p : Parser) {bs later : Bytes} (h : skip bs = 123 :: later) :
    before strtod p bs =
      match expect 125 later with
      | some rest => behind strtod (p.handleValue (objectOf [])) rest
      | none => beforeMember strtod p SortedMap.empty later := by
  rw [before, scan_of_skip h, run_eq, Parser.iterate, if_neg Bool.false_ne_true]
  have htoken : (scanToken strtod 123 later) = (.beginObject, later) := rfl
  rw [htoken]
  dsimp only [Parser.startObject, Parser.getToken]
  rcases @scan_structural strtod 125 .endObject (by decide) later with
    ⟨hend, hexpect⟩ | ⟨hend, hexpect⟩
  · rw [hexpect, hend]
    dsimp only
    rw [outcome_evaluate (skip_endObject _)]
    obtain ⟨rest, lastToken, states, root, refStack, skip⟩ := p
    rcases refStack with _ | ⟨_ | _, outer⟩ <;> rfl
  · rw [hexpect]
    dsimp only
    rw [beforeMember, ← Option.bind_assoc]
    rcases @scan_string strtod later with ⟨k, left, hstring, hscan⟩ | ⟨hstring, hscan⟩
    · rw [hstring, hscan]
      dsimp only [Option.bind_some]
      exact @outcome_memberValue strtod _ p SortedMap.empty [] k rfl rfl rfl
    · rw [hstring]
      split
      · next h => exact absurd h hend
      · next k h => exact absurd h (hscan k)
      · rfl

/-- The loop reads a value where one is expected, and goes on behind it. -/
theorem before_eq (n : Nat) : ∀ (p : Parser) (bs : Bytes), bs.length ≤ n →
    before strtod p bs = (descend strtod n bs).bind fun r =>
      behind strtod (p.handleValue r.1) r.2 := by
  induction n with
  | zero =>
    intro p bs hn
    obtain rfl := List.eq_nil_of_length_eq_zero (Nat.le_zero.mp hn)
    exact before_blank rfl p
  | succ n ih =>
    intro p bs hn
    cases hskip : skip bs with
    | nil =>
      rw [before_blank hskip, descend_blank _ bs hskip]
      rfl
    | cons c later =>
      have hlater : later.length ≤ n := by
        have hlt := length_of_skip hskip
        omega
      by_cases hbrace : c = 123
      · subst hbrace
        rw [before_brace p hskip, descend_of_brace hskip, Option.bind_map]
        cases hclose : expect 125 later with
        | some rest =>
          rw [enclosed_of_close (expect_eq_some_iff.mp hclose)]
          rfl
        | none =>
          rw [enclosed_of_expect_none member_blank hclose]
          exact beforeMember_eq ih p n later SortedMap.empty hlater hlater
      by_cases hbracket : c = 91
      · subst hbracket
        rw [before_bracket p hskip, descend_of_bracket hskip, Option.bind_map]
        cases hclose : expect 93 later with
        | some rest =>
          rw [enclosed_of_close (expect_eq_some_iff.mp hclose)]
          rfl
        | none =>
          rw [enclosed_of_expect_none (descend_blank n) hclose]
          exact before_inArray ih p n later [] hlater hlater
      · rw [descend_of_scalar hskip hbrace hbracket, scalarValue, Option.bind_map, before,
          scan_of_skip hskip, run_eq]
        rw [outcome_scalar rfl (scanToken_ne (c := 91) (by decide) hbracket later)
          (scanToken_ne (c := 123) (by decide) hbrace later)]
        refine congrArg _ (funext fun v => ?_)
        obtain ⟨rest, lastToken, states, root, refStack, skip⟩ := p
        rcases refStack with _ | ⟨_ | _, outer⟩ <;> rfl

/-! ## Whole texts -/

private theorem ne_endOfInput_scanToken {c : UInt8} (hc : c ≠ 0) (rest : Bytes) :
    (scanToken strtod c rest).1 ≠ .endOfInput := by
  have hstructural : ∀ e ∈ structuralTokens, e.2 ≠ .endOfInput := by decide
  exact scanToken_forall (P := fun t => t ≠ .endOfInput) (fun e he _ => hstructural e he)
    ⟨nofun, nofun, nofun⟩ (fun _ _ _ _ => nofun)
    (convert_forall (P := fun t => t ≠ .endOfInput) (fun _ _ => nofun) (fun _ _ => nofun)
      fun _ => nofun)
    (fun hzero => absurd hzero hc) nofun

/-- The input ends where nothing is left, or at a zero byte. -/
theorem scan_endOfInput_iff {bs : Bytes} : (scan strtod bs).1 = .endOfInput ↔
    skip bs = [] ∨ ∃ later, skip bs = 0 :: later := by
  cases hskip : skip bs with
  | nil =>
    rw [scan_of_blank hskip]
    exact iff_of_true rfl (Or.inl rfl)
  | cons c later =>
    rw [scan_of_skip hskip]
    by_cases hc : c = 0
    · rw [hc]
      exact iff_of_true rfl (Or.inr ⟨later, rfl⟩)
    · refine iff_of_false (ne_endOfInput_scanToken hc later) ?_
      rintro (h | ⟨later', h⟩)
      · cases h
      · exact hc (List.cons.inj h).1

/-- The loop of the parser does what a descent into the brackets does. -/
theorem parse_descend (t : Bytes) : parse strtod t = (skipBom t).bind fun bs =>
    (descend strtod bs.length bs).bind fun r =>
      if (scan strtod r.2).1 = .endOfInput then some r.1 else none := by
  rw [parse]
  refine congrArg _ (funext fun bs => ?_)
  dsimp only
  have hrun : ∀ (p : Parser), ((saxParseInternal strtod p).bind fun q =>
      if (q.getToken strtod).lastToken = .endOfInput then some q.root else none) =
        (run strtod p).bind fun r =>
          if (scan strtod r.2).1 = .endOfInput then some r.1 else none := by
    intro p
    rw [run, Option.bind_map]
    rfl
  rw [hrun]
  have hbefore := @before_eq strtod bs.length ⟨bs, .endOfInput, [], .null, [], false⟩ bs
    (Nat.le_refl _)
  rw [before] at hbefore
  dsimp only [Parser.getToken]
  rw [hbefore, Option.bind_assoc]
  refine congrArg _ (funext fun r => ?_)
  rw [behind_nil (by rw [Parser.states_handleValue]), Option.bind_some]
  rfl

private theorem stops_of_blank {bs : Bytes} (h : skip bs = [] ∨ ∃ later, skip bs = 0 :: later) :
    Stops bs := by
  rcases h with h | ⟨later, h⟩
  · intro c hc
    cases bs with
    | nil => cases hc
    | cons b bs =>
      cases hc
      have hspace : JsonText.isSpace c = true :=
        List.dropWhile_eq_nil_iff.mp h c (List.mem_cons_self ..)
      have hcases : c = 32 ∨ c = 9 ∨ c = 10 ∨ c = 13 := of_decide_eq_true hspace
      rcases hcases with rfl | rfl | rfl | rfl <;> rfl
  · exact stops_of_expect (expect_eq_some_iff.mpr h) rfl

private theorem blank_takeWhile {bs : Bytes} (h : skip bs = [] ∨ ∃ later, skip bs = 0 :: later) :
    skip (bs.takeWhile (· ≠ 0)) = [] := by
  rcases h with h | ⟨later, h⟩
  · exact List.dropWhile_eq_nil_iff.mpr fun c hc =>
      List.dropWhile_eq_nil_iff.mp h c ((List.takeWhile_prefix _).subset hc)
  · obtain ⟨space, rfl, hzero, hspace⟩ := skip_split h
    have hnonzero : ∀ c ∈ space, decide (c ≠ 0) = true := by
      intro c hc
      refine decide_eq_true ?_
      rintro rfl
      exact hzero hc
    rw [List.takeWhile_append_of_pos hnonzero, List.takeWhile_cons_of_neg (by decide),
      List.append_nil, hspace]

/-- The library parses a text as the grammar does: the text may have a byte order mark, it ends
at a zero byte, and its value is that of its tree. -/
theorem parse_eq (strtod : Bytes → BitVec 64) (t : Bytes) : parse strtod t =
    (skipBom t).bind fun bs => (JsonText.parse (bs.takeWhile (· ≠ 0))).bind (ofTree strtod) := by
  rw [parse_descend]
  refine congrArg _ (funext fun bs => Option.ext fun j => ?_)
  rw [Option.bind_eq_some_iff, Option.bind_eq_some_iff]
  constructor
  · rintro ⟨⟨j', rest⟩, hdescend, hend⟩
    split at hend
    · next htoken =>
      cases hend
      have hrest := scan_endOfInput_iff.mp htoken
      obtain ⟨tree, hvalue, hof⟩ := descend_lifts strtod _ _ _ _ hdescend (stops_of_blank hrest)
      obtain ⟨used, hsplit, hzero, hall⟩ := value_local _ _ _ _ hvalue
      have hnonzero : ∀ c ∈ used, decide (c ≠ 0) = true := by
        intro c hc
        refine decide_eq_true ?_
        rintro rfl
        exact hzero hc
      have hspace := blank_takeWhile hrest
      refine ⟨tree, parse_eq_some_iff.mpr ⟨bs.length, rest.takeWhile (· ≠ 0), ?_, hspace⟩, hof⟩
      have hcut := hall (rest.takeWhile (· ≠ 0)) fun _ => stops_of_blank (Or.inl hspace)
      rw [← List.takeWhile_append_of_pos hnonzero, ← hsplit] at hcut
      exact hcut
    · cases hend
  · rintro ⟨tree, hparse, hof⟩
    obtain ⟨n, space, hvalue, hspace⟩ := parse_eq_some_iff.mp hparse
    have hsplit := List.takeWhile_append_dropWhile (p := fun c : UInt8 => decide (c ≠ 0)) (l := bs)
    have hzero : bs.dropWhile (· ≠ 0) = [] ∨ ∃ later, bs.dropWhile (· ≠ 0) = 0 :: later := by
      cases hdrop : bs.dropWhile (· ≠ 0) with
      | nil => exact Or.inl rfl
      | cons c later =>
        have hhead := List.head?_dropWhile_not (· ≠ (0 : UInt8)) bs
        rw [hdrop] at hhead
        exact Or.inr ⟨later, by rw [not_not.mp (of_decide_eq_false hhead)]⟩
    have hblank : skip (bs.dropWhile (· ≠ 0)) = [] ∨
        ∃ later, skip (bs.dropWhile (· ≠ 0)) = 0 :: later := by
      rcases hzero with h | ⟨later, h⟩
      · exact Or.inl (by rw [h]; rfl)
      · exact Or.inr ⟨later, by rw [h]; rfl⟩
    have hwhole := value_append (bs.dropWhile (· ≠ 0)) n _ _ _ hvalue (Or.inr (stops_of_blank hblank))
    rw [hsplit] at hwhole
    have hdescend := descend_maps strtod bs.length _ _ _
      (value_enough n bs.length bs _ (Nat.le_refl _) hwhole)
    rw [hof] at hdescend
    refine ⟨(j, space ++ bs.dropWhile (· ≠ 0)), hdescend, if_pos ?_⟩
    rw [scan_endOfInput_iff, skip_append_of_nil hspace]
    exact hblank

end ChatRoom.Nlohmann
