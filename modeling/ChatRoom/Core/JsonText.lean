import ChatRoom.Core.Decimal

/-!
# JSON texts

A parser for JSON texts in UTF-8. Its trees keep what a JSON value forgets: the order of
the members of an object, keys that are repeated, and how a number is spelled. Each
parser takes the bytes it needs and returns the rest. Nesting and length are bounded by
a fuel, for which the length of the text is enough.
-/

namespace ChatRoom.Core.JsonText

open Decimal

/-- The syntax tree of a text: a number is kept as it was written, and so is a repeated key. -/
inductive Tree where
  | null
  | boolean (b : Bool)
  | number (lexeme : Bytes)
  | string (s : Bytes)
  | array (elements : List Tree)
  | object (members : List (Bytes × Tree))

/-! ## Space, numbers and strings -/

/-- The white space of RFC 8259. -/
def isSpace (c : UInt8) : Bool := c = 32 ∨ c = 9 ∨ c = 10 ∨ c = 13

/-- What follows the white space at the front. -/
def skip (bs : Bytes) : Bytes := bs.dropWhile isSpace

/-- A certain byte, after any space. -/
def expect (c : UInt8) (bs : Bytes) : Option Bytes :=
  match skip bs with
  | [] => none
  | c' :: rest => if c' = c then some rest else none

/-- The bytes that a number may hold. -/
def isNumberByte (c : UInt8) : Bool :=
  isDigit c ∨ c = 43 ∨ c = 45 ∨ c = 46 ∨ c = 69 ∨ c = 101

/-- What follows one or more digits. -/
def afterDigits : Bytes → Option Bytes
  | [] => none
  | c :: rest => if isDigit c then some (rest.dropWhile isDigit) else none

/-- The end of a number: nothing, or an exponent with an optional sign. -/
def isExponent : Bytes → Bool
  | [] => true
  | c :: rest =>
    (c = 69 ∨ c = 101) ∧
      (afterDigits rest = some [] ∨
        ∃ s ∈ rest.head?, (s = 43 ∨ s = 45) ∧ afterDigits rest.tail = some [])

/-- The end of a number after its integer part. -/
def isFraction : Bytes → Bool
  | [] => true
  | c :: rest =>
    if c = 46 then
      match afterDigits rest with
      | some rest => isExponent rest
      | none => false
    else isExponent (c :: rest)

/-- A number without its sign: no zeros in front. -/
def isUnsigned : Bytes → Bool
  | [] => false
  | c :: rest =>
    if c = 48 then isFraction rest
    else if isDigit c then isFraction (rest.dropWhile isDigit)
    else false

/-- The number of RFC 8259, as a whole text. -/
def isNumber : Bytes → Bool
  | [] => false
  | c :: rest => if c = 45 then isUnsigned rest else isUnsigned (c :: rest)

/-- A number takes all the bytes that it may hold. -/
def number (bs : Bytes) : Option (Tree × Bytes) :=
  let lexeme := bs.takeWhile isNumberByte
  if isNumber lexeme then some (.number lexeme, bs.dropWhile isNumberByte) else none

/-- A literal name. -/
def word (w : Bytes) (tree : Tree) (bs : Bytes) : Option (Tree × Bytes) :=
  if w.isPrefixOf bs then some (tree, bs.drop w.length) else none

/-- The value of a hexadecimal digit in either case. -/
def hexDigit (c : UInt8) : Option Nat :=
  if 48 ≤ c ∧ c ≤ 57 then some (c.toNat - 48)
  else if 65 ≤ c ∧ c ≤ 70 then some (c.toNat - 55)
  else if 97 ≤ c ∧ c ≤ 102 then some (c.toNat - 87)
  else none

/-- The value of the four digits behind `\u`. -/
def hexWord (a b c d : UInt8) : Option Nat :=
  match hexDigit a, hexDigit b, hexDigit c, hexDigit d with
  | some a, some b, some c, some d => some (((a * 16 + b) * 16 + c) * 16 + d)
  | _, _, _, _ => none

/-- What the byte after a backslash stands for. -/
def simpleEscape (c : UInt8) : Option UInt8 :=
  if c = 34 ∨ c = 92 ∨ c = 47 then some c
  else if c = 98 then some 8
  else if c = 102 then some 12
  else if c = 110 then some 10
  else if c = 114 then some 13
  else if c = 116 then some 9
  else none

/-- The UTF-8 bytes of a code point. -/
def utf8 (code : Nat) : Bytes := String.utf8EncodeChar (Char.ofNat code)

/-- The characters that the content of a string literal stands for. A code beyond the basic
plane is written as a pair of surrogates. -/
def unescape : Bytes → Option Bytes
  | [] => some []
  | c :: rest =>
    if c = 92 then
      match rest with
      | [] => none
      | e :: rest =>
        if e = 117 then
          match rest with
          | a :: b :: c :: d :: rest =>
            match hexWord a b c d with
            | none => none
            | some high =>
              if 0xD800 ≤ high ∧ high < 0xDC00 then
                match rest with
                | s :: e :: a :: b :: c :: d :: rest =>
                  match hexWord a b c d with
                  | none => none
                  | some low =>
                    if s = 92 ∧ e = 117 ∧ 0xDC00 ≤ low ∧ low < 0xE000 then
                      (unescape rest).map fun t =>
                        utf8 (0x10000 + (high - 0xD800) * 0x400 + (low - 0xDC00)) ++ t
                    else none
                | _ => none
              else if 0xDC00 ≤ high ∧ high < 0xE000 then none
              else (unescape rest).map fun t => utf8 high ++ t
          | _ => none
        else
          match simpleEscape e with
          | some b => (unescape rest).map fun t => b :: t
          | none => none
    else if c < 32 then none
    else (unescape rest).map fun t => c :: t

/-- The content of a string literal up to its closing quote, and what follows. -/
def closeQuote : Bytes → Option (Bytes × Bytes)
  | [] => none
  | c :: rest =>
    if c = 34 then some ([], rest)
    else if c = 92 then
      match rest with
      | [] => none
      | e :: rest => (closeQuote rest).map fun r => (c :: e :: r.1, r.2)
    else (closeQuote rest).map fun r => (c :: r.1, r.2)

/-- A string literal after its opening quote. -/
def string (bs : Bytes) : Option (Bytes × Bytes) :=
  (closeQuote bs).bind fun r =>
    (unescape r.1).bind fun s =>
      if s.toByteArray.IsValidUTF8 then some (s, r.2) else none

/-! ## Arrays, objects and values -/

variable {α : Type}

/-- Items separated by commas, up to the closing bracket. -/
def sequence (item : Bytes → Option (α × Bytes)) (close : UInt8) :
    Nat → Bytes → Option (List α × Bytes)
  | 0, _ => none
  | n + 1, bs =>
    (item bs).bind fun first =>
      match expect close first.2 with
      | some rest => some ([first.1], rest)
      | none =>
        (expect 44 first.2).bind fun rest =>
          (sequence item close n rest).map fun more => (first.1 :: more.1, more.2)

/-- What stands between two brackets: nothing, or a sequence of items. -/
def enclosed (item : Bytes → Option (α × Bytes)) (close : UInt8) (n : Nat) (bs : Bytes) :
    Option (List α × Bytes) :=
  match skip bs with
  | [] => none
  | c :: rest => if c = close then some ([], rest) else sequence item close n bs

/-- A key, a colon and a value. -/
def member (value : Bytes → Option (α × Bytes)) (bs : Bytes) : Option ((Bytes × α) × Bytes) :=
  (expect 34 bs).bind fun rest =>
    (string rest).bind fun key =>
      (expect 58 key.2).bind fun rest => (value rest).map fun v => ((key.1, v.1), v.2)

/-- A string, a literal name or a number, by its first byte. -/
def scalar (c : UInt8) (rest : Bytes) : Option (Tree × Bytes) :=
  if c = 34 then (string rest).map fun r => (.string r.1, r.2)
  else if c = 110 then word [110, 117, 108, 108] .null (c :: rest)
  else if c = 116 then word [116, 114, 117, 101] (.boolean true) (c :: rest)
  else if c = 102 then word [102, 97, 108, 115, 101] (.boolean false) (c :: rest)
  else number (c :: rest)

/-- A value at the front of a text, and what follows it. The number is fuel, of which one unit for
each byte is enough. -/
def value : Nat → Bytes → Option (Tree × Bytes)
  | 0, _ => none
  | n + 1, bs =>
    match skip bs with
    | [] => none
    | c :: rest =>
      if c = 123 then (enclosed (member (value n)) 125 n rest).map fun r => (.object r.1, r.2)
      else if c = 91 then (enclosed (value n) 93 n rest).map fun r => (.array r.1, r.2)
      else scalar c rest

/-- The tree of a whole text. -/
def parse (bs : Bytes) : Option Tree :=
  match value (bs.length + 1) bs with
  | none => none
  | some (tree, rest) => if skip rest = [] then some tree else none

/-! ## What follows a text does not matter -/

/-- What comes later does not change what is skipped before a character. -/
theorem skip_append {bs rest : Bytes} {c : UInt8} (h : skip bs = c :: rest) (tail : Bytes) :
    skip (bs ++ tail) = c :: (rest ++ tail) := by
  rw [skip] at h
  rw [skip, List.dropWhile_append, h]
  rfl

/-- White space before a text is skipped with that of the text. -/
theorem skip_append_of_nil {bs : Bytes} (h : skip bs = []) (tail : Bytes) :
    skip (bs ++ tail) = skip tail := by
  rw [skip] at h
  rw [skip, List.dropWhile_append, h]
  rfl

/-- No number goes on here. -/
def Stops (tail : Bytes) : Prop := ∀ c ∈ tail.head?, isNumberByte c = false

/-- No part of a number stands where a number ends. -/
theorem takeWhile_of_stops {tail : Bytes} (h : Stops tail) : tail.takeWhile isNumberByte = [] := by
  cases tail with
  | nil => rfl
  | cons c tail =>
    rw [List.takeWhile_cons_of_neg]
    exact ne_true_of_eq_false (h c rfl)

/-- No part of a number stands where a number ends. -/
theorem dropWhile_of_stops {tail : Bytes} (h : Stops tail) :
    tail.dropWhile isNumberByte = tail := by
  cases tail with
  | nil => rfl
  | cons c tail =>
    rw [List.dropWhile_cons_of_neg]
    exact ne_true_of_eq_false (h c rfl)

/-- The parser returns the same when more bytes follow, if these do not prolong a number. -/
def Extends (tail : Bytes) (p : Bytes → Option (α × Bytes)) : Prop :=
  ∀ bs a rest, p bs = some (a, rest) → rest ≠ [] ∨ Stops tail →
    p (bs ++ tail) = some (a, rest ++ tail)

private theorem number_append (tail : Bytes) : Extends tail number := by
  intro bs a rest h hstops
  simp only [number] at h ⊢
  split at h
  · next hnumber =>
    obtain ⟨rfl, rfl⟩ := Prod.mk.inj (Option.some.inj h)
    have hsplit := List.takeWhile_append_dropWhile (p := isNumberByte) (l := bs)
    rw [List.takeWhile_append, List.dropWhile_append]
    cases hrest : bs.dropWhile isNumberByte with
    | nil =>
      rw [hrest, List.append_nil] at hsplit
      have hstop : Stops tail := hstops.resolve_left fun hne => hne hrest
      rw [hsplit] at hnumber ⊢
      rw [if_pos rfl, takeWhile_of_stops hstop, List.append_nil, if_pos hnumber]
      simp only [List.isEmpty_nil, if_true, dropWhile_of_stops hstop, List.nil_append]
    | cons c rest =>
      have hlen : (bs.takeWhile isNumberByte).length ≠ bs.length := by
        have hsum := congrArg List.length hsplit
        rw [hrest, List.length_append, List.length_cons] at hsum
        omega
      rw [if_neg hlen, if_pos hnumber]
      rfl
  · cases h

private theorem word_append {w bs rest : Bytes} {tree a : Tree}
    (h : word w tree bs = some (a, rest))
    (tail : Bytes) : word w tree (bs ++ tail) = some (a, rest ++ tail) := by
  rw [word] at h ⊢
  split at h
  · next hprefix =>
    obtain ⟨rfl, rfl⟩ := Prod.mk.inj (Option.some.inj h)
    have hfirst : w <+: bs := List.isPrefixOf_iff_prefix.mp hprefix
    have hmore : w.isPrefixOf (bs ++ tail) = true :=
      List.isPrefixOf_iff_prefix.mpr (hfirst.trans (List.prefix_append bs tail))
    rw [if_pos hmore, List.drop_append_of_le_length hfirst.length_le]
  · cases h

/-- The character is expected behind white space. -/
theorem expect_eq_some_iff {c : UInt8} {bs rest : Bytes} :
    expect c bs = some rest ↔ skip bs = c :: rest := by
  rw [expect]
  cases hskip : skip bs with
  | nil => simp
  | cons c' later => simp

private theorem expect_append {c : UInt8} {bs rest : Bytes} (h : expect c bs = some rest)
    (tail : Bytes) :
    expect c (bs ++ tail) = some (rest ++ tail) :=
  expect_eq_some_iff.mpr (skip_append (expect_eq_some_iff.mp h) tail)

/-- A byte that is there is no other byte. -/
theorem expect_eq_none {c c' : UInt8} {bs rest : Bytes} (h : expect c bs = some rest)
    (hne : c ≠ c') : expect c' bs = none := by
  rw [expect, expect_eq_some_iff.mp h]
  exact if_neg hne

/-- A quotation mark closes the string. -/
theorem closeQuote_quote (rest : Bytes) : closeQuote (34 :: rest) = some ([], rest) := by
  rw [closeQuote.eq_def]
  exact if_pos rfl

/-- What follows a backslash closes no string. -/
theorem closeQuote_escape (e : UInt8) (rest : Bytes) :
    closeQuote (92 :: e :: rest) = (closeQuote rest).map fun r => (92 :: e :: r.1, r.2) := by
  rw [closeQuote.eq_def]
  rfl

/-- Any other character belongs to the content. -/
theorem closeQuote_of_ne {c : UInt8} (hquote : c ≠ 34) (hslash : c ≠ 92) (rest : Bytes) :
    closeQuote (c :: rest) = (closeQuote rest).map fun r => (c :: r.1, r.2) := by
  rw [closeQuote.eq_def]
  simp only [if_neg hquote, if_neg hslash]

private theorem closeQuote_append {bs content rest : Bytes}
    (h : closeQuote bs = some (content, rest))
    (tail : Bytes) : closeQuote (bs ++ tail) = some (content, rest ++ tail) := by
  fun_induction closeQuote bs generalizing content rest with
  | case1 => cases h
  | case2 after =>
    obtain ⟨rfl, rfl⟩ := Prod.mk.inj (Option.some.inj h)
    rw [List.cons_append, closeQuote_quote]
  | case3 hne => cases h
  | case4 e after hne ih =>
    obtain ⟨r, hr, heq⟩ := Option.map_eq_some_iff.mp h
    obtain ⟨rfl, rfl⟩ := Prod.mk.inj heq
    rw [List.cons_append, List.cons_append, closeQuote_escape, ih hr, Option.map_some]
  | case5 c after hquote hslash ih =>
    obtain ⟨r, hr, heq⟩ := Option.map_eq_some_iff.mp h
    obtain ⟨rfl, rfl⟩ := Prod.mk.inj heq
    rw [List.cons_append, closeQuote_of_ne hquote hslash, ih hr, Option.map_some]

/-- A string is its content with the escapes resolved, in UTF-8. -/
theorem string_eq_some_iff {bs s rest : Bytes} :
    string bs = some (s, rest) ↔ ∃ content, closeQuote bs = some (content, rest) ∧
      unescape content = some s ∧ s.toByteArray.IsValidUTF8 := by
  constructor
  · intro h
    obtain ⟨r, hclose, h⟩ := Option.bind_eq_some_iff.mp h
    obtain ⟨t, hunescape, h⟩ := Option.bind_eq_some_iff.mp h
    split at h
    · next hvalid =>
      obtain ⟨rfl, rfl⟩ := Prod.mk.inj (Option.some.inj h)
      exact ⟨r.1, hclose, hunescape, hvalid⟩
    · cases h
  · rintro ⟨content, hclose, hunescape, hvalid⟩
    rw [string, hclose, Option.bind_some, hunescape, Option.bind_some, if_pos hvalid]

private theorem string_append {bs s rest : Bytes} (h : string bs = some (s, rest)) (tail : Bytes) :
    string (bs ++ tail) = some (s, rest ++ tail) := by
  obtain ⟨content, hclose, hunescape, hvalid⟩ := string_eq_some_iff.mp h
  exact string_eq_some_iff.mpr ⟨content, closeQuote_append hclose tail, hunescape, hvalid⟩

/-- Something follows an item, so that more bytes never prolong it. -/
theorem ne_nil_of_expect {c : UInt8} {bs rest : Bytes} (h : expect c bs = some rest) :
    bs ≠ [] := by
  rintro rfl
  cases h

/-- A sequence is an item before the bracket, or an item and a comma before a sequence. -/
theorem sequence_succ_eq_some_iff {item : Bytes → Option (α × Bytes)} {close : UInt8} {n : Nat}
    {bs rest : Bytes} {l : List α} :
    sequence item close (n + 1) bs = some (l, rest) ↔ ∃ a left, item bs = some (a, left) ∧
      (expect close left = some rest ∧ l = [a] ∨
        expect close left = none ∧ ∃ after more, expect 44 left = some after ∧
          sequence item close n after = some (more, rest) ∧ l = a :: more) := by
  rw [sequence]
  constructor
  · intro h
    obtain ⟨⟨a, left⟩, hitem, h⟩ := Option.bind_eq_some_iff.mp h
    refine ⟨a, left, hitem, ?_⟩
    dsimp only at h
    cases hclose : expect close left with
    | some after =>
      rw [hclose] at h
      cases h
      exact Or.inl ⟨rfl, rfl⟩
    | none =>
      rw [hclose] at h
      obtain ⟨after, hcomma, h⟩ := Option.bind_eq_some_iff.mp h
      obtain ⟨⟨more, left'⟩, hmore, heq⟩ := Option.map_eq_some_iff.mp h
      cases heq
      exact Or.inr ⟨rfl, after, more, hcomma, hmore, rfl⟩
  · rintro ⟨a, left, hitem, ⟨hclose, rfl⟩ | ⟨hclose, after, more, hcomma, hmore, rfl⟩⟩
    · rw [hitem, Option.bind_some, hclose]
    · rw [hitem, Option.bind_some, hclose, hcomma, Option.bind_some, hmore, Option.map_some]

private theorem sequence_append {item : Bytes → Option (α × Bytes)} {tail : Bytes}
    (hitem : Extends tail item) {close : UInt8} {n : Nat} {bs rest : Bytes} {l : List α}
    (h : sequence item close n bs = some (l, rest)) :
    sequence item close n (bs ++ tail) = some (l, rest ++ tail) := by
  induction n generalizing bs l with
  | zero => cases h
  | succ n ih =>
    rw [sequence_succ_eq_some_iff] at h ⊢
    obtain ⟨a, left, ha, ⟨hclose, hl⟩ | ⟨hclose, after, more, hcomma, hmore, hl⟩⟩ := h
    · have hfirst := hitem bs a left ha (Or.inl (ne_nil_of_expect hclose))
      exact ⟨a, left ++ tail, hfirst, Or.inl ⟨expect_append hclose tail, hl⟩⟩
    · have hfirst := hitem bs a left ha (Or.inl (ne_nil_of_expect hcomma))
      have hne : (44 : UInt8) ≠ close := by
        rintro rfl
        rw [hcomma] at hclose
        cases hclose
      have hcomma' := expect_append hcomma tail
      exact ⟨a, left ++ tail, hfirst, Or.inr ⟨expect_eq_none hcomma' hne, after ++ tail, more,
        hcomma', ih hmore, hl⟩⟩

private theorem enclosed_append {item : Bytes → Option (α × Bytes)} {tail : Bytes}
    (hitem : Extends tail item) {close : UInt8} {n : Nat} {bs rest : Bytes} {l : List α}
    (h : enclosed item close n bs = some (l, rest)) :
    enclosed item close n (bs ++ tail) = some (l, rest ++ tail) := by
  rw [enclosed] at h ⊢
  cases hskip : skip bs with
  | nil =>
    rw [hskip] at h
    cases h
  | cons c later =>
    rw [hskip] at h
    rw [skip_append hskip tail]
    dsimp only at h ⊢
    split at h
    · next hclose =>
      obtain ⟨rfl, rfl⟩ := Prod.mk.inj (Option.some.inj h)
      rw [if_pos hclose]
    · next hclose =>
      rw [if_neg hclose]
      exact sequence_append hitem h

/-- A member is a key, a colon and a value. -/
theorem member_eq_some_iff {value : Bytes → Option (α × Bytes)} {bs : Bytes}
    {r : (Bytes × α) × Bytes} :
    member value bs = some r ↔ ∃ after key colon rest v, expect 34 bs = some after ∧
      string after = some (key, colon) ∧ expect 58 colon = some rest ∧ value rest = some v ∧
      r = ((key, v.1), v.2) := by
  rw [member]
  constructor
  · intro h
    obtain ⟨after, hquote, h⟩ := Option.bind_eq_some_iff.mp h
    obtain ⟨key, hkey, h⟩ := Option.bind_eq_some_iff.mp h
    obtain ⟨rest, hcolon, h⟩ := Option.bind_eq_some_iff.mp h
    obtain ⟨v, hv, heq⟩ := Option.map_eq_some_iff.mp h
    exact ⟨after, key.1, key.2, rest, v, hquote, hkey, hcolon, hv, heq.symm⟩
  · rintro ⟨after, key, colon, rest, v, hquote, hkey, hcolon, hv, rfl⟩
    rw [hquote, Option.bind_some, hkey, Option.bind_some, hcolon, Option.bind_some, hv,
      Option.map_some]

private theorem member_append {value : Bytes → Option (α × Bytes)} {tail : Bytes}
    (hvalue : Extends tail value) : Extends tail (member value) := by
  intro bs a left h hstops
  obtain ⟨after, key, colon, rest, v, hquote, hkey, hcolon, hv, heq⟩ := member_eq_some_iff.mp h
  cases heq
  exact member_eq_some_iff.mpr ⟨after ++ tail, key, colon ++ tail, rest ++ tail,
    (v.1, v.2 ++ tail), expect_append hquote tail, string_append hkey tail,
    expect_append hcolon tail, hvalue _ _ _ hv hstops, rfl⟩

private theorem scalar_append {c : UInt8} {tail bs rest : Bytes} {a : Tree}
    (h : scalar c bs = some (a, rest)) (hstops : rest ≠ [] ∨ Stops tail) :
    scalar c (bs ++ tail) = some (a, rest ++ tail) := by
  rw [scalar] at h ⊢
  split at h
  · next hc =>
    obtain ⟨r, hr, heq⟩ := Option.map_eq_some_iff.mp h
    obtain ⟨rfl, rfl⟩ := Prod.mk.inj heq
    rw [if_pos hc, string_append hr, Option.map_some]
  · next hquote =>
    rw [if_neg hquote]
    split at h
    · next hc => rw [if_pos hc, ← List.cons_append, word_append h]
    · next hnull =>
      rw [if_neg hnull]
      split at h
      · next hc => rw [if_pos hc, ← List.cons_append, word_append h]
      · next htrue =>
        rw [if_neg htrue]
        split at h
        · next hc => rw [if_pos hc, ← List.cons_append, word_append h]
        · next hfalse =>
          rw [if_neg hfalse, ← List.cons_append]
          exact number_append tail _ _ _ h hstops

/-- A value that ends before the end of the text does not depend on what follows. -/
theorem value_append (tail : Bytes) (n : Nat) : Extends tail (value n) := by
  induction n with
  | zero =>
    intro bs a rest h
    cases h
  | succ n ih =>
    intro bs a rest h hstops
    rw [value] at h ⊢
    cases hskip : skip bs with
    | nil =>
      rw [hskip] at h
      cases h
    | cons c later =>
      rw [hskip] at h
      rw [skip_append hskip tail]
      dsimp only at h ⊢
      split at h
      · next hc =>
        obtain ⟨r, hr, heq⟩ := Option.map_eq_some_iff.mp h
        obtain ⟨rfl, rfl⟩ := Prod.mk.inj heq
        rw [if_pos hc, enclosed_append (member_append ih) hr, Option.map_some]
      · next hbrace =>
        rw [if_neg hbrace]
        split at h
        · next hc =>
          obtain ⟨r, hr, heq⟩ := Option.map_eq_some_iff.mp h
          obtain ⟨rfl, rfl⟩ := Prod.mk.inj heq
          rw [if_pos hc, enclosed_append ih hr, Option.map_some]
        · next hbracket =>
          rw [if_neg hbracket]
          exact scalar_append h hstops

private theorem word_tree {w bs rest : Bytes} {tree a : Tree}
    (h : word w tree bs = some (a, rest)) :
    a = tree := by
  rw [word] at h
  split at h
  · exact (Prod.mk.inj (Option.some.inj h)).1.symm
  · cases h

/-- No scalar is an object. -/
theorem scalar_ne_object {c : UInt8} {bs rest : Bytes} {members : List (Bytes × Tree)} :
    scalar c bs ≠ some (.object members, rest) := by
  intro h
  rw [scalar] at h
  split at h
  · obtain ⟨r, _, heq⟩ := Option.map_eq_some_iff.mp h
    cases heq
  · split at h
    · cases word_tree h
    · split at h
      · cases word_tree h
      · split at h
        · cases word_tree h
        · simp only [number] at h
          split at h <;> cases h

/-- A brace begins an object. -/
theorem value_brace {bs later : Bytes} (h : skip bs = 123 :: later) (n : Nat) :
    value (n + 1) bs =
      (enclosed (member (value n)) 125 n later).map fun r => (.object r.1, r.2) := by
  rw [value, h]
  exact if_pos rfl

/-- The text of an object starts with a brace. -/
theorem brace_of_value {n : Nat} {bs rest : Bytes} {members : List (Bytes × Tree)}
    (h : value (n + 1) bs = some (.object members, rest)) :
    ∃ later, skip bs = 123 :: later ∧
      enclosed (member (value n)) 125 n later = some (members, rest) := by
  cases hskip : skip bs with
  | nil =>
    rw [value, hskip] at h
    cases h
  | cons c later =>
    by_cases hc : c = 123
    · rw [hc] at hskip ⊢
      rw [value_brace hskip] at h
      obtain ⟨r, hr, heq⟩ := Option.map_eq_some_iff.mp h
      cases heq
      exact ⟨later, rfl, hr⟩
    · rw [value, hskip] at h
      dsimp only at h
      rw [if_neg hc] at h
      split at h
      · obtain ⟨r, _, heq⟩ := Option.map_eq_some_iff.mp h
        cases heq
      · exact absurd h scalar_ne_object

/-- An object ends with its brace. -/
theorem value_object_append {n : Nat} {bs rest : Bytes} {members : List (Bytes × Tree)}
    (h : value n bs = some (.object members, rest)) (tail : Bytes) :
    value n (bs ++ tail) = some (.object members, rest ++ tail) := by
  cases n with
  | zero => cases h
  | succ n =>
    obtain ⟨later, hskip, hmembers⟩ := brace_of_value h
    rw [value_brace (skip_append hskip tail),
      enclosed_append (member_append (value_append tail n)) hmembers, Option.map_some]

/-! ## Enough fuel -/

/-- What is returned is shorter than what was given. -/
def Consumes (p : Bytes → Option (α × Bytes)) : Prop :=
  ∀ bs a rest, p bs = some (a, rest) → rest.length < bs.length

/-- A character takes something off the text. -/
theorem length_of_skip {bs later : Bytes} {c : UInt8} (h : skip bs = c :: later) :
    later.length < bs.length := by
  have hle : (skip bs).length ≤ bs.length := (List.dropWhile_sublist isSpace).length_le
  rw [h, List.length_cons] at hle
  exact hle

/-- An expected character takes something off the text. -/
theorem length_of_expect {c : UInt8} {bs rest : Bytes} (h : expect c bs = some rest) :
    rest.length < bs.length :=
  length_of_skip (expect_eq_some_iff.mp h)

private theorem length_of_closeQuote {bs content rest : Bytes}
    (h : closeQuote bs = some (content, rest)) :
    rest.length < bs.length := by
  fun_induction closeQuote bs generalizing content rest with
  | case1 => cases h
  | case2 after =>
    cases h
    exact Nat.lt_succ_self _
  | case3 hne => cases h
  | case4 e after hne ih =>
    obtain ⟨r, hr, heq⟩ := Option.map_eq_some_iff.mp h
    cases heq
    have hlt := ih hr
    simp only [List.length_cons]
    omega
  | case5 c after hquote hslash ih =>
    obtain ⟨r, hr, heq⟩ := Option.map_eq_some_iff.mp h
    cases heq
    exact Nat.lt_succ_of_lt (ih hr)

/-- A string takes something off the text. -/
theorem string_consumes : Consumes string := by
  intro bs s rest h
  obtain ⟨content, hclose, _⟩ := string_eq_some_iff.mp h
  exact length_of_closeQuote hclose

/-- A number takes something off the text. -/
theorem number_consumes : Consumes number := by
  intro bs a rest h
  simp only [number] at h
  split at h
  · next hnumber =>
    cases h
    have hsplit := congrArg List.length
      (List.takeWhile_append_dropWhile (p := isNumberByte) (l := bs))
    rw [List.length_append] at hsplit
    cases hlexeme : bs.takeWhile isNumberByte with
    | nil =>
      rw [hlexeme] at hnumber
      cases hnumber
    | cons c lexeme =>
      rw [hlexeme, List.length_cons] at hsplit
      omega
  · cases h

private theorem word_consumes {w : Bytes} (hw : w ≠ []) (tree : Tree) : Consumes (word w tree) := by
  intro bs a rest h
  rw [word] at h
  split at h
  · next hprefix =>
    cases h
    have hle := (List.isPrefixOf_iff_prefix.mp hprefix).length_le
    have hpos := List.length_pos_iff.mpr hw
    rw [List.length_drop]
    omega
  · cases h

private theorem length_of_scalar {c : UInt8} {bs rest : Bytes} {a : Tree}
    (h : scalar c bs = some (a, rest)) : rest.length < (c :: bs).length := by
  rw [scalar] at h
  split at h
  · obtain ⟨r, hr, heq⟩ := Option.map_eq_some_iff.mp h
    cases heq
    exact Nat.lt_succ_of_lt (string_consumes _ _ _ hr)
  · split at h
    · exact word_consumes (by decide) _ _ _ _ h
    · split at h
      · exact word_consumes (by decide) _ _ _ _ h
      · split at h
        · exact word_consumes (by decide) _ _ _ _ h
        · exact number_consumes _ _ _ h

/-- A member takes something off the text if its value does. -/
theorem member_consumes {value : Bytes → Option (α × Bytes)} (hvalue : Consumes value) :
    Consumes (member value) := by
  intro bs a left h
  obtain ⟨after, key, colon, rest, v, hquote, hkey, hcolon, hv, heq⟩ := member_eq_some_iff.mp h
  cases heq
  have h₁ := length_of_expect hquote
  have h₂ := string_consumes _ _ _ hkey
  have h₃ := length_of_expect hcolon
  have h₄ := hvalue _ _ _ hv
  omega

private theorem sequence_consumes {item : Bytes → Option (α × Bytes)} (hitem : Consumes item)
    (close : UInt8) (n : Nat) : Consumes (sequence item close n) := by
  induction n with
  | zero =>
    intro bs l rest h
    cases h
  | succ n ih =>
    intro bs l rest h
    obtain ⟨a, left, ha, ⟨hclose, _⟩ | ⟨_, after, more, hcomma, hmore, _⟩⟩ :=
      sequence_succ_eq_some_iff.mp h
    · exact Nat.lt_trans (length_of_expect hclose) (hitem _ _ _ ha)
    · have h₁ := hitem _ _ _ ha
      have h₂ := length_of_expect hcomma
      have h₃ := ih _ _ _ hmore
      omega

/-- A list takes something off the text if its elements do. -/
theorem enclosed_consumes {item : Bytes → Option (α × Bytes)} (hitem : Consumes item)
    (close : UInt8) (n : Nat) : Consumes (enclosed item close n) := by
  intro bs l rest h
  rw [enclosed] at h
  cases hskip : skip bs with
  | nil =>
    rw [hskip] at h
    cases h
  | cons c later =>
    rw [hskip] at h
    dsimp only at h
    split at h
    · cases h
      exact length_of_skip hskip
    · exact sequence_consumes hitem close n _ _ _ h

private theorem value_consumes (n : Nat) : Consumes (value n) := by
  induction n with
  | zero =>
    intro bs a rest h
    cases h
  | succ n ih =>
    intro bs a rest h
    rw [value] at h
    cases hskip : skip bs with
    | nil =>
      rw [hskip] at h
      cases h
    | cons c later =>
      rw [hskip] at h
      have h₁ := length_of_skip hskip
      dsimp only at h
      split at h
      · obtain ⟨r, hr, heq⟩ := Option.map_eq_some_iff.mp h
        cases heq
        exact Nat.lt_trans (enclosed_consumes (member_consumes ih) 125 n _ _ _ hr) h₁
      · split at h
        · obtain ⟨r, hr, heq⟩ := Option.map_eq_some_iff.mp h
          cases heq
          exact Nat.lt_trans (enclosed_consumes ih 93 n _ _ _ hr) h₁
        · have h₂ := length_of_scalar h
          rw [List.length_cons] at h₂
          omega

/-- What the first parser returns for a text of at most `k` bytes, the second one returns too. -/
def Below (k : Nat) (p q : Bytes → Option (α × Bytes)) : Prop :=
  ∀ bs r, bs.length ≤ k → p bs = some r → q bs = some r

private theorem sequence_enough {p q : Bytes → Option (α × Bytes)} {k : Nat} (h : Below k p q)
    (hp : Consumes p) (close : UInt8) (n : Nat) {m : Nat} (hmk : m ≤ k) :
    Below m (sequence p close n) (sequence q close m) := by
  induction n generalizing m with
  | zero =>
    intro bs r _ hr
    cases hr
  | succ n ih =>
    rintro bs ⟨l, rest⟩ hm hr
    obtain ⟨a, left, ha, hmore⟩ := sequence_succ_eq_some_iff.mp hr
    have hlt := hp _ _ _ ha
    obtain ⟨m, rfl⟩ : ∃ m', m = m' + 1 := ⟨m - 1, by omega⟩
    refine sequence_succ_eq_some_iff.mpr ⟨a, left, h bs _ (Nat.le_trans hm hmk) ha, ?_⟩
    refine hmore.imp_right ?_
    rintro ⟨hclose, after, more, hcomma, hmore, hl⟩
    have hshort := length_of_expect hcomma
    have hrest := ih (Nat.le_of_succ_le hmk) after _ (by omega) hmore
    exact ⟨hclose, after, more, hcomma, hrest, hl⟩

private theorem enclosed_enough {p q : Bytes → Option (α × Bytes)} {k : Nat} (h : Below k p q)
    (hp : Consumes p) (close : UInt8) (n : Nat) :
    Below k (enclosed p close n) (enclosed q close k) := by
  intro bs r hk hr
  rw [enclosed] at hr ⊢
  cases hskip : skip bs with
  | nil =>
    rw [hskip] at hr
    cases hr
  | cons c later =>
    rw [hskip] at hr
    dsimp only at hr ⊢
    split at hr
    · next hc => rw [if_pos hc, hr]
    · next hc =>
      rw [if_neg hc]
      exact sequence_enough h hp close n (Nat.le_refl _) bs r hk hr

private theorem member_enough {p q : Bytes → Option (α × Bytes)} {k : Nat} (h : Below k p q) :
    Below k (member p) (member q) := by
  intro bs r hk hr
  obtain ⟨after, key, colon, rest, v, hquote, hkey, hcolon, hv, heq⟩ := member_eq_some_iff.mp hr
  have h₁ := length_of_expect hquote
  have h₂ := string_consumes _ _ _ hkey
  have h₃ := length_of_expect hcolon
  have hv' := h rest v (by omega) hv
  exact member_eq_some_iff.mpr ⟨after, key, colon, rest, v, hquote, hkey, hcolon, hv', heq⟩

/-- The length of a text is enough fuel for it. -/
theorem value_enough (n m : Nat) : Below m (value n) (value m) := by
  induction m generalizing n with
  | zero =>
    intro bs r hm hr
    have hlt := value_consumes n _ _ _ hr
    omega
  | succ m ih =>
    intro bs r hm hr
    cases n with
    | zero => cases hr
    | succ n =>
      rw [value] at hr ⊢
      cases hskip : skip bs with
      | nil =>
        rw [hskip] at hr
        cases hr
      | cons c later =>
        rw [hskip] at hr
        have hlater : later.length ≤ m := by
          have hlt := length_of_skip hskip
          omega
        dsimp only at hr ⊢
        split at hr
        · next hc =>
          obtain ⟨t, ht, rfl⟩ := Option.map_eq_some_iff.mp hr
          rw [if_pos hc, enclosed_enough (member_enough (ih n))
            (member_consumes (value_consumes n)) 125 n later t hlater ht, Option.map_some]
        · next hbrace =>
          rw [if_neg hbrace]
          split at hr
          · next hc =>
            obtain ⟨t, ht, rfl⟩ := Option.map_eq_some_iff.mp hr
            rw [if_pos hc, enclosed_enough (ih n) (value_consumes n) 93 n later t hlater ht,
              Option.map_some]
          · next hbracket => rw [if_neg hbracket, hr]

/-! ## Whole texts -/

/-- Any fuel will do that reads the text. -/
theorem parse_eq_some_iff {bs : Bytes} {tree : Tree} :
    parse bs = some tree ↔ ∃ n rest, value n bs = some (tree, rest) ∧ skip rest = [] := by
  constructor
  · intro h
    rw [parse] at h
    cases hvalue : value (bs.length + 1) bs with
    | none =>
      rw [hvalue] at h
      cases h
    | some r =>
      rw [hvalue] at h
      dsimp only at h
      split at h
      · next hrest =>
        cases h
        exact ⟨_, r.2, hvalue, hrest⟩
      · cases h
  · rintro ⟨n, rest, hvalue, hrest⟩
    rw [parse, value_enough n (bs.length + 1) bs _ (Nat.le_succ _) hvalue]
    exact if_pos hrest

/-- The text of a value, read with any fuel that is enough. -/
theorem value_of_parse {bs : Bytes} {tree : Tree} (h : parse bs = some tree) {m : Nat}
    (hm : bs.length ≤ m) : ∃ rest, value m bs = some (tree, rest) ∧ skip rest = [] := by
  obtain ⟨n, rest, hvalue, hrest⟩ := parse_eq_some_iff.mp h
  exact ⟨rest, value_enough n m bs _ hm hvalue, hrest⟩

/-- The text of a value inside of another text. -/
theorem value_append_of_parse {t tail : Bytes} {tree : Tree} (h : parse t = some tree)
    (hstops : Stops tail) {n : Nat} (hn : t.length ≤ n) :
    ∃ space, skip space = [] ∧ value n (t ++ tail) = some (tree, space ++ tail) := by
  obtain ⟨space, hvalue, hspace⟩ := value_of_parse h hn
  exact ⟨space, hspace, value_append tail n t tree space hvalue (Or.inr hstops)⟩

/-- A text that is cut before its end is no object. -/
theorem parse_cut {front tail : Bytes} {tree : Tree} (h : parse (front ++ tail) = some tree)
    (htail : skip tail ≠ []) (members : List (Bytes × Tree)) :
    parse front ≠ some (.object members) := by
  intro hcut
  have hlonger : front.length ≤ (front ++ tail).length := by
    rw [List.length_append]
    exact Nat.le_add_right _ _
  obtain ⟨space, hfront, hspace⟩ := value_of_parse hcut hlonger
  obtain ⟨rest, hwhole, hrest⟩ := value_of_parse h (Nat.le_refl _)
  have hsame := value_object_append hfront tail
  rw [hwhole] at hsame
  cases hsame
  rw [skip_append_of_nil hspace] at hrest
  exact htail hrest

end ChatRoom.Core.JsonText
