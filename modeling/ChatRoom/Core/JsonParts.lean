import Mathlib.Data.List.TakeWhile
import ChatRoom.Core.JsonText

/-!
# Parts of JSON texts

What the parser makes of the parts that a program writes by hand: a string between two
quotes, an integer, and the members of an object one after the other. A string may be
written as it is exactly when it needs no escape.
-/

namespace ChatRoom.Core.JsonText

open Decimal

variable {α : Type}

/-! ## Strings that stand for themselves -/

/-- A string that is its own content: no control bytes, no quote, no backslash, valid UTF-8. -/
structure Verbatim (s : Bytes) : Prop where
  plain : ∀ c ∈ s, 32 ≤ c ∧ c ≠ 34 ∧ c ≠ 92
  valid : s.toByteArray.IsValidUTF8

private theorem closeQuote_plain {s : Bytes} (h : ∀ c ∈ s, 32 ≤ c ∧ c ≠ 34 ∧ c ≠ 92)
    (rest : Bytes) :
    closeQuote (s ++ 34 :: rest) = some (s, rest) := by
  induction s with
  | nil => exact closeQuote_quote rest
  | cons c s ih =>
    obtain ⟨_, hquote, hslash⟩ := h c (List.mem_cons_self ..)
    rw [List.cons_append, closeQuote_of_ne hquote hslash,
      ih fun c' hc' => h c' (List.mem_cons_of_mem _ hc'), Option.map_some]

/-- A character that is no backslash stands for itself. -/
theorem unescape_of_ne {c : UInt8} (hslash : c ≠ 92) (hcontrol : 32 ≤ c) (rest : Bytes) :
    unescape (c :: rest) = (unescape rest).map fun t => c :: t := by
  rw [unescape.eq_def]
  simp only [if_neg hslash, if_neg (UInt8.not_lt.mpr hcontrol)]

private theorem unescape_plain {s : Bytes} (h : ∀ c ∈ s, 32 ≤ c ∧ c ≠ 34 ∧ c ≠ 92) :
    unescape s = some s := by
  induction s with
  | nil => rfl
  | cons c s ih =>
    obtain ⟨hcontrol, _, hslash⟩ := h c (List.mem_cons_self ..)
    rw [unescape_of_ne hslash hcontrol, ih fun c' hc' => h c' (List.mem_cons_of_mem _ hc'),
      Option.map_some]

/-- A text that needs no escape is read as it is. -/
theorem string_verbatim {s : Bytes} (h : Verbatim s) (rest : Bytes) :
    string (s ++ 34 :: rest) = some (s, rest) :=
  string_eq_some_iff.mpr ⟨s, closeQuote_plain h.plain rest, unescape_plain h.plain, h.valid⟩

/-- The content ends at a quotation mark, and has one in it only behind a backslash. -/
theorem closeQuote_eq {bs content rest : Bytes} (h : closeQuote bs = some (content, rest)) :
    bs = content ++ 34 :: rest ∧ (92 ∉ content → 34 ∉ content) := by
  fun_induction closeQuote bs generalizing content rest with
  | case1 => cases h
  | case2 after =>
    obtain ⟨rfl, rfl⟩ := Prod.mk.inj (Option.some.inj h)
    exact ⟨rfl, fun _ => List.not_mem_nil⟩
  | case3 hne => cases h
  | case4 e after hne ih =>
    obtain ⟨r, hr, heq⟩ := Option.map_eq_some_iff.mp h
    obtain ⟨rfl, rfl⟩ := Prod.mk.inj heq
    refine ⟨by rw [(ih hr).1]; rfl, fun hslash => ?_⟩
    exact absurd (List.mem_cons_self ..) hslash
  | case5 c after hquote hslash ih =>
    obtain ⟨r, hr, heq⟩ := Option.map_eq_some_iff.mp h
    obtain ⟨rfl, rfl⟩ := Prod.mk.inj heq
    refine ⟨by rw [(ih hr).1]; rfl, fun hnot hmem => ?_⟩
    rcases List.mem_cons.mp hmem with heq | hmem
    · exact hquote heq.symm
    · exact (ih hr).2 (fun hin => hnot (List.mem_cons_of_mem _ hin)) hmem

private theorem length_utf8_le (code : Nat) : (utf8 code).length ≤ 4 := by
  rw [utf8, String.length_utf8EncodeChar]
  exact Char.utf8Size_le_four _

/-- An escape is longer than what it stands for, so content as long as its string has none. -/
theorem unescape_length {bs s : Bytes} (h : unescape bs = some s) :
    s.length ≤ bs.length ∧
      (s.length = bs.length → s = bs ∧ ∀ c ∈ bs, 32 ≤ c ∧ c ≠ 92) := by
  fun_induction unescape bs generalizing s with
  | case1 =>
    cases h
    exact ⟨Nat.le_refl _, fun _ => ⟨rfl, fun c hc => absurd hc List.not_mem_nil⟩⟩
  | case5 a b c d high _ _ s' e a' b' c' d' rest low _ _ ih =>
    obtain ⟨t, ht, rfl⟩ := Option.map_eq_some_iff.mp h
    have hrest := (ih ht).1
    have hcode := length_utf8_le (0x10000 + (high - 0xD800) * 0x400 + (low - 0xDC00))
    simp only [List.length_append, List.length_cons]
    exact ⟨by omega, fun heq => by omega⟩
  | case9 a b c d rest code _ _ _ ih =>
    obtain ⟨t, ht, rfl⟩ := Option.map_eq_some_iff.mp h
    have hrest := (ih ht).1
    have hcode := length_utf8_le code
    simp only [List.length_append, List.length_cons]
    exact ⟨by omega, fun heq => by omega⟩
  | case11 e rest _ b _ ih =>
    obtain ⟨t, ht, rfl⟩ := Option.map_eq_some_iff.mp h
    have hrest := (ih ht).1
    simp only [List.length_cons]
    exact ⟨by omega, fun heq => by omega⟩
  | case14 c rest hslash hcontrol ih =>
    obtain ⟨t, ht, rfl⟩ := Option.map_eq_some_iff.mp h
    obtain ⟨hrest, hsame⟩ := ih ht
    refine ⟨Nat.succ_le_succ hrest, fun heq => ?_⟩
    obtain ⟨rfl, hplain⟩ := hsame (Nat.succ.inj heq)
    refine ⟨rfl, fun c' hc' => ?_⟩
    rcases List.mem_cons.mp hc' with rfl | hc'
    · exact ⟨UInt8.not_lt.mp hcontrol, hslash⟩
    · exact hplain c' hc'
  | _ => cases h

/-- Only a verbatim string is read back as itself from between two quotes, when the closing
quote and one byte are all that follows. -/
theorem verbatim_of_string {s rest : Bytes} {last : UInt8} (hlast : last ≠ 34)
    (h : string (s ++ [34, last]) = some (s, rest)) : Verbatim s := by
  obtain ⟨content, hclose, hunescape, hvalid⟩ := string_eq_some_iff.mp h
  obtain ⟨hsplit, hquote⟩ := closeQuote_eq hclose
  obtain ⟨hle, hsame⟩ := unescape_length hunescape
  -- The byte after the closing quote is no quote, so the content is not longer.
  have hlength : s.length = content.length := by
    have hlen := congrArg List.length hsplit
    simp only [List.length_append, List.length_cons, List.length_nil] at hlen
    by_contra hne
    have hcontent : content.length = s.length + 1 := by omega
    have hleft : (s ++ [34, last])[s.length + 1]? = some last := by simp
    have hright : (content ++ 34 :: rest)[content.length]? = some 34 := by simp
    rw [hcontent, ← hsplit, hleft] at hright
    exact hlast (Option.some.inj hright)
  obtain ⟨heq, hplain⟩ := hsame hlength
  subst heq
  have hnone : 92 ∉ s := fun hmem => (hplain 92 hmem).2 rfl
  refine ⟨fun c hc => ⟨(hplain c hc).1, ?_, (hplain c hc).2⟩, hvalid⟩
  rintro rfl
  exact hquote hnone hc

/-! ## Building objects -/

/-- The character is there. -/
theorem expect_cons {c : UInt8} (h : isSpace c = false) (rest : Bytes) :
    expect c (c :: rest) = some rest := by
  rw [expect_eq_some_iff, skip, List.dropWhile_cons_of_neg (ne_true_of_eq_false h)]

/-- A member whose key needs no escape. -/
theorem member_verbatim {value : Bytes → Option (α × Bytes)} {key : Bytes} (h : Verbatim key)
    (rest : Bytes) :
    member value (34 :: (key ++ 34 :: 58 :: rest)) =
      (value rest).map fun v => ((key, v.1), v.2) := by
  rw [member, expect_cons rfl, Option.bind_some, string_verbatim h, Option.bind_some,
    expect_cons rfl, Option.bind_some]

/-- Space in front of a member or a value is skipped. -/
theorem member_space (value : Bytes → Option (α × Bytes)) (bs : Bytes) :
    member value (32 :: bs) = member value bs := rfl

/-- A space before a value is skipped. -/
theorem value_space (n : Nat) (bs : Bytes) : value n (32 :: bs) = value n bs := by
  cases n with
  | zero => rfl
  | succ n =>
    rw [value, value]
    rfl

/-- An item before a comma. -/
theorem sequence_comma {item : Bytes → Option (α × Bytes)} {bs rest : Bytes} {a : α}
    (h : item bs = some (a, 44 :: rest)) {close : UInt8} (hclose : 44 ≠ close) (n : Nat) :
    sequence item close (n + 1) bs =
      (sequence item close n rest).map fun more => (a :: more.1, more.2) := by
  have hcomma : expect 44 (44 :: rest) = some rest := expect_cons rfl rest
  rw [sequence, h, Option.bind_some, expect_eq_none hcomma hclose, hcomma, Option.bind_some]

/-- The last item, with space before the bracket. -/
theorem sequence_close {item : Bytes → Option (α × Bytes)} {bs space rest : Bytes} {a : α}
    {close : UInt8} (h : item bs = some (a, space ++ close :: rest)) (hspace : skip space = [])
    (hclose : isSpace close = false) (n : Nat) :
    sequence item close (n + 1) bs = some ([a], rest) := by
  have hend : expect close (space ++ close :: rest) = some rest := by
    rw [expect_eq_some_iff, skip_append_of_nil hspace]
    exact expect_eq_some_iff.mp (expect_cons hclose rest)
  rw [sequence, h, Option.bind_some, hend]

/-- The first item of a sequence is what its parser returns. -/
theorem head_of_sequence {item : Bytes → Option (α × Bytes)} {close : UInt8} {n : Nat}
    {bs rest : Bytes} {l : List α} (h : sequence item close n bs = some (l, rest)) :
    ∃ first more, item bs = some first ∧ l = first.1 :: more := by
  cases n with
  | zero => cases h
  | succ n =>
    obtain ⟨a, left, ha, ⟨_, hl⟩ | ⟨_, after, more, _, _, hl⟩⟩ := sequence_succ_eq_some_iff.mp h
    · exact ⟨(a, left), [], ha, hl⟩
    · exact ⟨(a, left), more, ha, hl⟩

/-! ## Integers -/

/-- A digit may stand in a number. -/
theorem isNumberByte_of_isDigit {c : UInt8} (h : isDigit c = true) : isNumberByte c = true :=
  decide_eq_true (Or.inl h)

private theorem isUnsigned_digits (n : Nat) : isUnsigned (digits n) = true := by
  cases hdigits : digits n with
  | nil => exact absurd hdigits (digits_ne_nil n)
  | cons c rest =>
    have hall : ∀ d ∈ c :: rest, isDigit d = true := fun d hd =>
      isDigit_of_mem_digits d (hdigits ▸ hd)
    rw [isUnsigned]
    split
    · next hzero =>
      -- Only 0 starts with a zero.
      have hn : n = 0 := by
        by_contra hne
        apply head_digits_ne_zero (Nat.pos_of_ne_zero hne)
        rw [hdigits, hzero, List.head?_cons]
      rw [hn, digits_of_lt (by decide)] at hdigits
      rw [← (List.cons.inj hdigits).2]
      rfl
    · have hrest : rest.dropWhile isDigit = [] := by
        rw [List.dropWhile_eq_nil_iff]
        exact fun d hd => hall d (List.mem_cons_of_mem _ hd)
      rw [if_pos (hall c (List.mem_cons_self ..)), hrest]
      rfl

/-- The decimal text of an integer is a number of RFC 8259. -/
theorem isNumber_encode (i : Int) : isNumber (encode i) = true := by
  cases i with
  | ofNat n =>
    rw [encode]
    cases hdigits : digits n with
    | nil => exact absurd hdigits (digits_ne_nil n)
    | cons c rest =>
      have hdigit : isDigit c = true :=
        isDigit_of_mem_digits c (hdigits ▸ List.mem_cons_self ..)
      have hne : c ≠ 45 := by
        rintro rfl
        cases hdigit
      rw [isNumber, if_neg hne, ← hdigits]
      exact isUnsigned_digits n
  | negSucc n =>
    rw [encode, isNumber, if_pos rfl]
    exact isUnsigned_digits (n + 1)

private theorem isNumberByte_of_mem_encode {i : Int} : ∀ c ∈ encode i, isNumberByte c = true := by
  intro c hc
  cases i with
  | ofNat n => exact isNumberByte_of_isDigit (isDigit_of_mem_digits c hc)
  | negSucc n =>
    rcases List.mem_cons.mp hc with rfl | hc
    · rfl
    · exact isNumberByte_of_isDigit (isDigit_of_mem_digits c hc)

private theorem number_encode (i : Int) {rest : Bytes} (h : Stops rest) :
    number (encode i ++ rest) = some (.number (encode i), rest) := by
  have htake : rest.takeWhile isNumberByte = [] := takeWhile_of_stops h
  have hdrop : rest.dropWhile isNumberByte = rest := dropWhile_of_stops h
  simp only [number, List.takeWhile_append_of_pos isNumberByte_of_mem_encode,
    List.dropWhile_append_of_pos isNumberByte_of_mem_encode, htake, hdrop, List.append_nil,
    isNumber_encode, if_true]

/-- A value that starts with a sign or a digit is a number. -/
theorem value_number {c : UInt8} (hc : c = 45 ∨ isDigit c = true) (rest : Bytes) (n : Nat) :
    value (n + 1) (c :: rest) = number (c :: rest) := by
  have hne : ∀ d, d ≠ 45 → isDigit d = false → c ≠ d := by
    rintro d hminus hdigit rfl
    rcases hc with hc | hc
    · exact hminus hc
    · rw [hdigit] at hc
      cases hc
  have hskip : skip (c :: rest) = c :: rest := by
    rw [skip, List.dropWhile_cons_of_neg]
    simp only [isSpace, decide_eq_true_eq, not_or]
    exact ⟨hne 32 (by decide) rfl, hne 9 (by decide) rfl, hne 10 (by decide) rfl,
      hne 13 (by decide) rfl⟩
  rw [value, hskip]
  simp only [scalar, if_neg (hne 123 (by decide) rfl), if_neg (hne 91 (by decide) rfl),
    if_neg (hne 34 (by decide) rfl), if_neg (hne 110 (by decide) rfl),
    if_neg (hne 116 (by decide) rfl), if_neg (hne 102 (by decide) rfl)]

/-- The decimal text of an integer is read as a number, if the number ends there. -/
theorem value_encode (i : Int) {rest : Bytes} (h : Stops rest) (n : Nat) :
    value (n + 1) (encode i ++ rest) = some (.number (encode i), rest) := by
  have hnumber := number_encode i h
  cases hencode : encode i with
  | nil =>
    have hbad := isNumber_encode i
    rw [hencode] at hbad
    cases hbad
  | cons c later =>
    have hc : c = 45 ∨ isDigit c = true := by
      cases i with
      | ofNat m =>
        rw [encode] at hencode
        exact Or.inr (isDigit_of_mem_digits c (hencode ▸ List.mem_cons_self ..))
      | negSucc m =>
        rw [encode] at hencode
        exact Or.inl (List.cons.inj hencode).1.symm
    rw [hencode] at hnumber
    rw [List.cons_append, value_number hc, ← List.cons_append, hnumber]

end ChatRoom.Core.JsonText
