import ChatRoom.Nlohmann.Dump
import ChatRoom.Nlohmann.Lexer

/-!
# The lexer and the grammar

The lexer reads strings, numbers and literal names as the grammar of JSON texts has them. A
string is checked to be UTF-8 while it is read, and the grammar checks it when it is complete.
-/

namespace ChatRoom.Nlohmann

open ChatRoom.Core JsonText

/-! ## Escapes -/

/-- Four hexadecimal digits. -/
inductive Hex : Bytes → Nat → Bytes → Prop where
  | digits {a b c d : UInt8} {code : Nat} (h : hexWord a b c d = some code) (rest : Bytes) :
      Hex (a :: b :: c :: d :: rest) code rest

/-- What stands after `\u`: the code of a character, or those of two surrogates. -/
inductive Unicode : Bytes → Bytes → Bytes → Prop where
  | basic {bs rest : Bytes} {code : Nat} (hcode : Hex bs code rest)
      (hvalid : code < 0xD800 ∨ 0xE000 ≤ code) : Unicode bs (utf8 code) rest
  | pair {bs more rest : Bytes} {high low : Nat} (hfirst : Hex bs high (92 :: 117 :: more))
      (hsecond : Hex more low rest) (hhigh : 0xD800 ≤ high ∧ high < 0xDC00)
      (hlow : 0xDC00 ≤ low ∧ low < 0xE000) :
      Unicode bs (utf8 (0x10000 + (high - 0xD800) * 0x400 + (low - 0xDC00))) rest

private theorem hexValue_eq (c : UInt8) : hexValue c = JsonText.hexDigit c := rfl

private theorem getCodepoint_factors (a b c d : UInt8) (bs : Bytes) :
    getCodepoint factors 0 (a :: b :: c :: d :: bs) =
      (hexWord a b c d).map fun code => (code, bs) := by
  rw [factors, hexWord]
  simp only [getCodepoint, hexValue_eq]
  cases JsonText.hexDigit a <;> cases JsonText.hexDigit b <;> cases JsonText.hexDigit c <;>
    cases JsonText.hexDigit d <;> try rfl
  simp only [Option.map_some, Nat.shiftLeft_eq]
  refine congrArg some (Prod.ext ?_ rfl)
  dsimp only
  omega

private theorem getCodepoint_short {bs : Bytes} (h : bs.length < 4) :
    getCodepoint factors 0 bs = none := by
  have hnone : ∀ (fs : List Nat) (n : Nat) (bs : Bytes), bs.length < fs.length →
      getCodepoint fs n bs = none := by
    intro fs n bs hlen
    fun_induction getCodepoint fs n bs with
    | case1 n bs => cases hlen
    | case2 f fs n => rfl
    | case3 f fs n c bs k hk ih => exact ih (Nat.lt_of_succ_lt_succ hlen)
    | case4 f fs n c bs hk => rfl
  exact hnone factors 0 bs h

private theorem lt_of_hexWord {a b c d : UInt8} {code : Nat} (h : hexWord a b c d = some code) :
    code < 0x10000 := by
  have hdigit : ∀ (c : UInt8) (n : Nat), JsonText.hexDigit c = some n → n < 16 := by
    intro c n hn
    rw [JsonText.hexDigit] at hn
    simp only [UInt8.le_iff_toNat_le] at hn
    split_ifs at hn with h1 h2 h3
    · cases hn
      have hle : c.toNat ≤ 57 := h1.2
      omega
    · cases hn
      have hle : c.toNat ≤ 70 := h2.2
      omega
    · cases hn
      have hle : c.toNat ≤ 102 := h3.2
      omega
  rw [hexWord] at h
  split at h
  · next a' b' c' d' ha hb hc hd =>
    have ha' := hdigit a a' ha
    have hb' := hdigit b b' hb
    have hc' := hdigit c c' hc
    have hd' := hdigit d d' hd
    cases h
    omega
  · cases h

/-- The bits of `m` below those of `a`. -/
theorem or_eq_add {a m : Nat} (i : Nat) (hm : m < 2 ^ i) (ha : a % 2 ^ i = 0) :
    a ||| m = m + a := by
  have hsplit : a = (a / 2 ^ i) <<< i := by
    rw [Nat.shiftLeft_eq, Nat.div_mul_cancel (Nat.dvd_of_mod_eq_zero ha)]
  rw [hsplit, ← Nat.shiftLeft_add_eq_or_of_lt hm, Nat.add_comm]

private theorem and_eq_mod (n : Nat) : n &&& 0x3F = n % 64 := Nat.and_two_pow_sub_one_eq_mod n 6

private theorem or_tail (n : Nat) : 0x80 ||| n &&& 0x3F = n % 64 + 0x80 := by
  rw [and_eq_mod, or_eq_add 6 (by omega) (by decide)]

/-- The bit operations make the bytes of the character. -/
theorem addCodepoint_eq {code : Nat} (h : code < 0x110000) :
    addCodepoint code = Utf8.encodeNat code := by
  rw [addCodepoint, Utf8.encodeNat]
  simp only [or_tail, Nat.shiftRight_eq_div_pow]
  split_ifs with h1 h2 h3 h4 h5 h6
  all_goals try omega
  · rfl
  · have hfirst : 0xC0 ||| code / 2 ^ 6 = code / 64 % 32 + 0xC0 := by
      rw [or_eq_add 5 (by omega) (by decide)]
      omega
    rw [hfirst]
  · have hfirst : 0xE0 ||| code / 2 ^ 12 = code / 4096 % 16 + 0xE0 := by
      rw [or_eq_add 4 (by omega) (by decide)]
      omega
    rw [hfirst]
  · have hfirst : 0xF0 ||| code / 2 ^ 18 = code / 262144 % 8 + 0xF0 := by
      rw [or_eq_add 3 (by omega) (by decide)]
      omega
    rw [hfirst]

private theorem addCodepoint_utf8 {code : Nat} (h : code.isValidChar) :
    addCodepoint code = utf8 code := by
  have hlt : code < 0x110000 := by
    rcases h with h | h
    · exact Nat.lt_trans h (by decide)
    · exact h.2
  rw [addCodepoint_eq hlt, utf8, Utf8.utf8EncodeChar_ofNat h]

variable {bs rest added : Bytes} {code : Nat}

private theorem Hex.lt (h : Hex bs code rest) : code < 0x10000 := by
  obtain ⟨hword, _⟩ := h
  exact lt_of_hexWord hword

private theorem getCodepoint_iff :
    getCodepoint factors 0 bs = some (code, rest) ↔ Hex bs code rest := by
  constructor
  · intro h
    by_cases hshort : bs.length < 4
    · rw [getCodepoint_short hshort] at h
      cases h
    · match bs, hshort with
      | a :: b :: c :: d :: bs, _ =>
        rw [getCodepoint_factors] at h
        obtain ⟨code', hword, heq⟩ := Option.map_eq_some_iff.mp h
        cases heq
        exact .digits hword _
      | [], hshort => exact absurd (by simp) hshort
      | [_], hshort => exact absurd (by simp) hshort
      | [_, _], hshort => exact absurd (by simp) hshort
      | [_, _, _], hshort => exact absurd (by simp) hshort
  · rintro ⟨hword, _⟩
    rw [getCodepoint_factors, hword]
    rfl

private theorem scanUnicode_iff : scanUnicode bs = some (added, rest) ↔ Unicode bs added rest := by
  constructor
  · intro h
    rw [scanUnicode] at h
    split at h
    · cases h
    · next high more hfirst =>
      have hhex := getCodepoint_iff.mp hfirst
      split at h
      · next hhigh =>
        split at h
        · next c d more =>
          split at h
          · next hu =>
            obtain ⟨rfl, rfl⟩ := hu
            split at h
            · cases h
            · next low rest' hsecond =>
              split at h
              · next hlow =>
                obtain ⟨rfl, rfl⟩ := Prod.mk.inj (Option.some.inj h)
                have hsum : high <<< 10 + low - 0x35FDC00 =
                    0x10000 + (high - 0xD800) * 0x400 + (low - 0xDC00) := by
                  rw [Nat.shiftLeft_eq]
                  omega
                rw [hsum, addCodepoint_utf8 (Or.inr ⟨by omega, by omega⟩)]
                exact .pair hhex (getCodepoint_iff.mp hsecond) ⟨hhigh.1, by omega⟩
                  ⟨hlow.1, by omega⟩
              · cases h
          · cases h
        · cases h
      · next hhigh =>
        split at h
        · cases h
        · next hlow =>
          cases h
          have hlt := hhex.lt
          have hvalid : high < 0xD800 ∨ 0xE000 ≤ high := by omega
          rw [addCodepoint_utf8 (hvalid.imp_right fun hle => ⟨by omega, by omega⟩)]
          exact .basic hhex hvalid
  · intro h
    cases h with
    | basic hcode hvalid =>
      have hlt := hcode.lt
      rw [scanUnicode, getCodepoint_iff.mpr hcode]
      dsimp only
      rw [if_neg (by omega), if_neg (by omega),
        addCodepoint_utf8 (hvalid.imp_right fun hle => ⟨by omega, by omega⟩)]
    | @pair more _ high low hfirst hsecond hhigh hlow =>
      have hsum : high <<< 10 + low - 0x35FDC00 =
          0x10000 + (high - 0xD800) * 0x400 + (low - 0xDC00) := by
        rw [Nat.shiftLeft_eq]
        omega
      rw [scanUnicode, getCodepoint_iff.mpr hfirst]
      dsimp only
      rw [if_pos ⟨hhigh.1, by omega⟩, if_pos ⟨rfl, rfl⟩, getCodepoint_iff.mpr hsecond]
      dsimp only
      rw [if_pos ⟨hlow.1, by omega⟩, hsum, addCodepoint_utf8 (Or.inr ⟨by omega, by omega⟩)]

/-- What stands in front of the rest of a string literal and has no quote that closes it. -/
def Inside (front : Bytes) : Prop :=
  ∀ tail, closeQuote (front ++ tail) = (closeQuote tail).map fun r => (front ++ r.1, r.2)

private theorem inside_cons {c : UInt8} {front : Bytes} (hquote : c ≠ 34) (hslash : c ≠ 92)
    (h : Inside front) : Inside (c :: front) := by
  intro tail
  rw [List.cons_append, closeQuote_of_ne hquote hslash, h tail, Option.map_map]
  rfl

private theorem inside_escape {front : Bytes} (e : UInt8) (h : Inside front) :
    Inside (92 :: e :: front) := by
  intro tail
  rw [List.cons_append, List.cons_append, closeQuote_escape, h tail, Option.map_map]
  rfl

private theorem Inside.append {front front' : Bytes} (h : Inside front) (h' : Inside front') :
    Inside (front ++ front') := by
  intro tail
  rw [List.append_assoc, h, h', Option.map_map]
  simp only [Function.comp_def, List.append_assoc]

private theorem inside_nil : Inside [] := by
  intro tail
  rw [List.nil_append]
  cases closeQuote tail <;> rfl

private theorem hexDigit_ne {c : UInt8} {n : Nat} (h : JsonText.hexDigit c = some n) :
    c ≠ 34 ∧ c ≠ 92 := by
  constructor <;>
  · rintro rfl
    cases h

/-- The digits stand in front of what is left, and mean the same in front of anything else. -/
theorem Hex.split (h : Hex bs code rest) :
    ∃ front, bs = front ++ rest ∧ Inside front ∧ ∀ tail, Hex (front ++ tail) code tail := by
  obtain ⟨hword, rest⟩ := h
  rename_i a b c d
  refine ⟨[a, b, c, d], rfl, ?_, fun tail => .digits hword tail⟩
  rw [hexWord] at hword
  split at hword
  · next ha hb hc hd =>
    exact inside_cons (hexDigit_ne ha).1 (hexDigit_ne ha).2 <|
      inside_cons (hexDigit_ne hb).1 (hexDigit_ne hb).2 <|
      inside_cons (hexDigit_ne hc).1 (hexDigit_ne hc).2 <|
      inside_cons (hexDigit_ne hd).1 (hexDigit_ne hd).2 inside_nil
  · cases hword

/-- The escape stands in front of what is left, and means the same in front of anything else. -/
theorem Unicode.split (h : Unicode bs added rest) :
    ∃ front, bs = front ++ rest ∧ Inside front ∧ ∀ tail, Unicode (front ++ tail) added tail := by
  cases h with
  | basic hcode hvalid =>
    obtain ⟨front, rfl, hinside, hall⟩ := hcode.split
    exact ⟨front, rfl, hinside, fun tail => .basic (hall tail) hvalid⟩
  | pair hfirst hsecond hhigh hlow =>
    obtain ⟨front, rfl, hinside, hall⟩ := hfirst.split
    obtain ⟨front', rfl, hinside', hall'⟩ := hsecond.split
    refine ⟨front ++ (92 :: 117 :: front'), by rw [List.append_assoc]; rfl,
      hinside.append (inside_escape 117 hinside'), fun tail => ?_⟩
    rw [List.append_assoc]
    exact .pair (hall _) (hall' tail) hhigh hlow

private theorem unescape_unicode_iff {s : Bytes} : unescape (92 :: 117 :: bs) = some s ↔
    ∃ added rest s', Unicode bs added rest ∧ unescape rest = some s' ∧ s = added ++ s' := by
  constructor
  · intro h
    rw [unescape.eq_def] at h
    simp only [if_pos] at h
    split at h
    · next a b c d rest =>
      split at h
      · cases h
      · next high hfirst =>
        split at h
        · next hhigh =>
          split at h
          · next s e a' b' c' d' rest =>
            split at h
            · cases h
            · next low hsecond =>
              split at h
              · next hlow =>
                obtain ⟨rfl, rfl, hlow⟩ := hlow
                obtain ⟨s', hs', rfl⟩ := Option.map_eq_some_iff.mp h
                exact ⟨_, rest, s', .pair (.digits hfirst _) (.digits hsecond _) hhigh hlow, hs',
                  rfl⟩
              · cases h
          · cases h
        · next hhigh =>
          split at h
          · cases h
          · next hlow =>
            obtain ⟨s', hs', rfl⟩ := Option.map_eq_some_iff.mp h
            exact ⟨_, rest, s', .basic (.digits hfirst _) (by omega), hs', rfl⟩
    · cases h
  · rintro ⟨added, rest, s', hunicode, hs', rfl⟩
    rw [unescape.eq_def]
    simp only [if_pos]
    cases hunicode with
    | basic hcode hvalid =>
      obtain ⟨hword, _⟩ := hcode
      simp only [hword, hs', Option.map_some]
      rw [if_neg (by omega), if_neg (by omega)]
    | pair hfirst hsecond hhigh hlow =>
      obtain ⟨hword', _⟩ := hsecond
      cases hfirst with
      | digits hword =>
        simp only [hword, hword', hs', Option.map_some]
        rw [if_pos hhigh, if_pos ⟨trivial, trivial, hlow⟩]

private theorem scanEscape_simple {e : UInt8} (he : e ≠ 117) (bs : Bytes) :
    scanEscape (e :: bs) = (simpleEscape e).map fun b => ([b], bs) := by
  rw [scanEscape, simpleEscape, if_neg he]
  by_cases hself : e = 34 ∨ e = 92 ∨ e = 47
  · rcases hself with rfl | rfl | rfl <;> rfl
  · have hne := not_or.mp hself
    have hne' := not_or.mp hne.2
    rw [if_neg hself, if_neg hne.1, if_neg hne'.1, if_neg hne'.2]
    split_ifs <;> rfl

/-- An escape is read in the same way wherever it stands. -/
theorem unescape_escape (bs : Bytes) : unescape (92 :: bs) =
    (scanEscape bs).bind fun r => (unescape r.2).map fun s => r.1 ++ s := by
  cases bs with
  | nil => rfl
  | cons e rest =>
    by_cases he : e = 117
    · rw [he]
      refine Option.ext fun s => ?_
      have hscan : scanEscape (117 :: rest) = scanUnicode rest := rfl
      rw [unescape_unicode_iff, hscan, Option.bind_eq_some_iff]
      constructor
      · rintro ⟨added, rest', s', hunicode, hs', rfl⟩
        exact ⟨(added, rest'), scanUnicode_iff.mpr hunicode, by rw [hs']; rfl⟩
      · rintro ⟨⟨added, rest'⟩, hunicode, hs⟩
        obtain ⟨s', hs', rfl⟩ := Option.map_eq_some_iff.mp hs
        exact ⟨added, rest', s', scanUnicode_iff.mp hunicode, hs', rfl⟩
    · rw [scanEscape_simple he, unescape.eq_def]
      simp only [if_pos, if_neg he]
      cases simpleEscape e <;> rfl

/-- The characters of a string literal, before it is checked that they are UTF-8. -/
def rawString (bs : Bytes) : Option (Bytes × Bytes) :=
  (closeQuote bs).bind fun r => (unescape r.1).map fun s => (s, r.2)

private theorem string_eq_rawString (bs : Bytes) : JsonText.string bs =
    (rawString bs).bind fun r => if Utf8.check [] r.1 then some r else none := by
  rw [JsonText.string, rawString, Option.bind_assoc]
  refine congrArg _ (funext fun r => ?_)
  rw [Option.bind_map]
  refine congrArg _ (funext fun s => ?_)
  simp only [Function.comp_apply, Utf8.check_iff]

private theorem rawString_eq_some_iff {s left : Bytes} : rawString bs = some (s, left) ↔
    ∃ content, closeQuote bs = some (content, left) ∧ unescape content = some s := by
  rw [rawString]
  constructor
  · intro h
    obtain ⟨⟨content, left'⟩, hclose, h⟩ := Option.bind_eq_some_iff.mp h
    obtain ⟨s', hs', heq⟩ := Option.map_eq_some_iff.mp h
    cases heq
    exact ⟨content, hclose, hs'⟩
  · rintro ⟨content, hclose, hs⟩
    rw [hclose, Option.bind_some, hs]
    rfl

private theorem scanEscape_split (h : scanEscape bs = some (added, rest)) :
    ∃ front, bs = front ++ rest ∧ Inside (92 :: front) ∧
      ∀ tail, scanEscape (front ++ tail) = some (added, tail) := by
  cases bs with
  | nil => cases h
  | cons e more =>
    by_cases he : e = 117
    · rw [he] at h ⊢
      have hunicode : Unicode more added rest := scanUnicode_iff.mp h
      obtain ⟨front, rfl, hinside, hall⟩ := hunicode.split
      exact ⟨117 :: front, rfl, inside_escape 117 hinside, fun tail =>
        scanUnicode_iff.mpr (hall tail)⟩
    · rw [scanEscape_simple he] at h
      obtain ⟨b, hb, heq⟩ := Option.map_eq_some_iff.mp h
      cases heq
      refine ⟨[e], rfl, inside_escape e inside_nil, fun tail => ?_⟩
      rw [List.singleton_append, scanEscape_simple he, hb]
      rfl

/-- The closing quote is looked for behind a whole escape. -/
theorem rawString_escape (bs : Bytes) : rawString (92 :: bs) =
    (scanEscape bs).bind fun r => (rawString r.2).map fun q => (r.1 ++ q.1, q.2) := by
  refine Option.ext fun q => ?_
  obtain ⟨s, left⟩ := q
  rw [rawString_eq_some_iff, Option.bind_eq_some_iff]
  constructor
  · rintro ⟨content, hclose, hs⟩
    cases bs with
    | nil => cases hclose
    | cons e more =>
      rw [closeQuote_escape] at hclose
      obtain ⟨⟨content', left'⟩, hmore, heq⟩ := Option.map_eq_some_iff.mp hclose
      cases heq
      rw [unescape_escape] at hs
      obtain ⟨⟨added, tail⟩, hscan, hs⟩ := Option.bind_eq_some_iff.mp hs
      obtain ⟨s', hs', rfl⟩ := Option.map_eq_some_iff.mp hs
      obtain ⟨front, hfront, hinside, hall⟩ := scanEscape_split hscan
      have hsplit : e :: more = front ++ (tail ++ 34 :: left') := by
        rw [(closeQuote_eq hmore).1, ← List.append_assoc, ← hfront]
        rfl
      refine ⟨(added, tail ++ 34 :: left'), by rw [hsplit, hall], ?_⟩
      have hwhole := hinside (tail ++ 34 :: left')
      rw [List.cons_append, ← hsplit, closeQuote_escape, hmore, Option.map_some] at hwhole
      obtain ⟨⟨tail', left''⟩, htail, heq⟩ := Option.map_eq_some_iff.mp hwhole.symm
      rw [hfront] at heq
      obtain ⟨htail', rfl⟩ := Prod.mk.inj heq
      obtain rfl := List.append_cancel_left htail'
      exact Option.map_eq_some_iff.mpr
        ⟨(s', left''), rawString_eq_some_iff.mpr ⟨tail', htail, hs'⟩, rfl⟩
  · rintro ⟨⟨added, rest⟩, hscan, h⟩
    obtain ⟨⟨s', left'⟩, hraw, heq⟩ := Option.map_eq_some_iff.mp h
    cases heq
    obtain ⟨content, hclose, hs'⟩ := rawString_eq_some_iff.mp hraw
    obtain ⟨front, rfl, hinside, hall⟩ := scanEscape_split hscan
    refine ⟨92 :: front ++ content, ?_, ?_⟩
    · rw [← List.cons_append, hinside, hclose]
      rfl
    · rw [List.cons_append, unescape_escape, hall, Option.bind_some, hs']
      rfl

private theorem rawString_of_ne {c : UInt8} (hquote : c ≠ 34) (hslash : c ≠ 92) (hcontrol : 32 ≤ c)
    (bs : Bytes) : rawString (c :: bs) = (rawString bs).map fun q => (c :: q.1, q.2) := by
  rw [rawString, rawString, closeQuote_of_ne hquote hslash]
  cases closeQuote bs with
  | none => rfl
  | some r =>
    simp only [Option.map_some, Option.bind_some, unescape_of_ne hslash hcontrol, Option.map_map]
    rfl

private theorem rawString_control {c : UInt8} (hquote : c ≠ 34) (hslash : c ≠ 92)
    (hcontrol : c < 32)
    (bs : Bytes) : rawString (c :: bs) = none := by
  rw [rawString, closeQuote_of_ne hquote hslash]
  cases closeQuote bs with
  | none => rfl
  | some r =>
    have hnone : unescape (c :: r.1) = none := by
      rw [unescape.eq_def]
      simp only [if_neg hslash, if_pos hcontrol]
    rw [Option.map_some, Option.bind_some, hnone]
    rfl

/-! ## Strings -/

private theorem scanString_quote (bs : Bytes) : scanString (34 :: bs) = some ([], bs) := by
  rw [scanString]
  exact if_pos rfl

private theorem scanString_escape (bs : Bytes) : scanString (92 :: bs) =
    (scanEscape bs).bind fun r => (scanString r.2).map fun q => (r.1 ++ q.1, q.2) := by
  rw [scanString, if_neg (by decide), if_pos rfl]
  split
  · next h =>
    rw [h]
    rfl
  · next added rest h =>
    rw [h]
    rfl

private theorem scanString_control {c : UInt8} (hquote : c ≠ 34) (hslash : c ≠ 92)
    (hcontrol : c < 0x20)
    (bs : Bytes) : scanString (c :: bs) = none := by
  rw [scanString, if_neg hquote, if_neg hslash, if_pos hcontrol]

private theorem scanString_ascii {c : UInt8} (hquote : c ≠ 34) (hslash : c ≠ 92)
    (hcontrol : 0x20 ≤ c)
    (hascii : c < 0x80) (bs : Bytes) :
    scanString (c :: bs) = (scanString bs).map fun q => (c :: q.1, q.2) := by
  rw [scanString, if_neg hquote, if_neg hslash, if_neg (UInt8.not_lt.mpr hcontrol), if_pos hascii]

private theorem plain_of_beyond {c : UInt8} (hbeyond : 0x80 ≤ c.toNat) :
    c ≠ 34 ∧ c ≠ 92 ∧ 32 ≤ c := by
  refine ⟨?_, ?_, ?_⟩
  · rintro rfl
    exact absurd hbeyond (by decide)
  · rintro rfl
    exact absurd hbeyond (by decide)
  · rw [UInt8.le_iff_toNat_le]
    exact Nat.le_trans (by decide) hbeyond

private theorem scanString_beyond {c : UInt8} (hbeyond : 0x80 ≤ c) (bs : Bytes) :
    scanString (c :: bs) =
    (byteRanges c).bind fun ranges => (nextByteInRange ranges bs).bind fun r =>
      (scanString r.2).map fun q => (c :: (r.1 ++ q.1), q.2) := by
  obtain ⟨hquote, hslash, hcontrol⟩ := plain_of_beyond (UInt8.le_iff_toNat_le.mp hbeyond)
  rw [scanString, if_neg hquote, if_neg hslash, if_neg (UInt8.not_lt.mpr hcontrol),
    if_neg (UInt8.not_lt.mpr hbeyond)]
  cases byteRanges c with
  | none => rfl
  | some ranges =>
    rw [Option.bind_some]
    dsimp only
    split
    · next h =>
      rw [h]
      rfl
    · next added rest h =>
      rw [h]
      rfl

/-- The ranges are what a first byte demands of the bytes after it. -/
theorem byteRanges_eq {c : UInt8} (hbeyond : 0x80 ≤ c) : byteRanges c = Utf8.trails c := by
  have hall : ∀ n < 256, 0x80 ≤ UInt8.ofNat n →
      byteRanges (UInt8.ofNat n) = Utf8.trails (UInt8.ofNat n) := by decide +kernel
  have hc := hall c.toNat (UInt8.toNat_lt c)
  rw [UInt8.ofNat_toNat] at hc
  exact hc hbeyond

/-- Bytes that go on with a character, and never begin one. -/
def Tails (owed : List (UInt8 × UInt8)) : Prop :=
  ∀ r ∈ owed, 0x80 ≤ r.1.toNat ∧ r.2.toNat ≤ 0xBF

private theorem tails_nil : Tails [] := List.forall_mem_nil _

private theorem tails_of_trails {c : UInt8} {owed : List (UInt8 × UInt8)}
    (h : Utf8.trails c = some owed) : Tails owed := fun _ hr => Utf8.bounds_of_mem_trails h hr

private theorem not_tail_of_trails {c : UInt8} {owed : List (UInt8 × UInt8)}
    (h : Utf8.trails c = some owed) : c.toNat < 0x80 ∨ 0xBF < c.toNat := by
  rw [Utf8.trails_eq] at h
  by_cases hascii : c.toNat < 0x80
  · exact Or.inl hascii
  · rw [if_neg hascii] at h
    refine Or.inr (Nat.lt_of_not_le fun hle => ?_)
    rw [if_pos (by omega)] at h
    cases h

/-- Whole characters in front of a text do not change whether it is well formed. -/
structure Characters (added : Bytes) : Prop where
  some : added ≠ []
  whole : ∀ s, Utf8.check [] (added ++ s) = Utf8.check [] s

/-- No character begins where the bytes of another one are owed. -/
theorem Characters.check_owed (h : Characters added) {r : UInt8 × UInt8}
    {owed : List (UInt8 × UInt8)} (hr : Tails (r :: owed)) (s : Bytes) :
    Utf8.check (r :: owed) (added ++ s) = false := by
  obtain ⟨b, more, rfl⟩ := List.exists_cons_of_ne_nil h.some
  have hwhole := h.whole []
  rw [List.append_nil] at hwhole
  cases htrails : Utf8.trails b with
  | none =>
    rw [Utf8.check_of_trails_none htrails] at hwhole
    cases hwhole
  | some owed' =>
    obtain ⟨hlo, hhi⟩ := hr r (List.mem_cons_self ..)
    have hout : ¬Utf8.within r b = true := by
      rw [Utf8.within_iff]
      have hb := not_tail_of_trails htrails
      omega
    exact Utf8.check_of_not_within hout _

private theorem characters_utf8 (code : Nat) : Characters (utf8 code) :=
  ⟨Utf8.encodeNat_ne_nil _, fun s => Utf8.check_utf8EncodeChar _ s⟩

private theorem characters_singleton {b : UInt8} (h : b.toNat < 0x80) : Characters [b] := by
  refine ⟨List.cons_ne_nil _ _, fun s => ?_⟩
  rw [List.singleton_append, Utf8.check_nil_cons]
  rw [Utf8.trails_eq, if_pos h]

private theorem characters_scanEscape (h : scanEscape bs = some (added, rest)) :
    Characters added := by
  cases bs with
  | nil => cases h
  | cons e more =>
    by_cases he : e = 117
    · rw [he] at h
      have hunicode : Unicode more added rest := scanUnicode_iff.mp h
      cases hunicode with
      | basic hcode hvalid => exact characters_utf8 _
      | pair hfirst hsecond hhigh hlow => exact characters_utf8 _
    · rw [scanEscape_simple he] at h
      obtain ⟨b, hb, heq⟩ := Option.map_eq_some_iff.mp h
      cases heq
      refine characters_singleton ?_
      rw [simpleEscape] at hb
      split_ifs at hb with hself <;> cases hb <;> try decide
      rcases hself with rfl | rfl | rfl <;> decide

/-- What the lexer makes of a string behind the bytes that it still has to check. -/
def scanOwed (owed : List (UInt8 × UInt8)) (bs : Bytes) : Option (Bytes × Bytes) :=
  (nextByteInRange owed bs).bind fun r => (scanString r.2).map fun q => (r.1 ++ q.1, q.2)

/-- What the grammar makes of it, when these bytes have been checked. -/
def textOwed (owed : List (UInt8 × UInt8)) (bs : Bytes) : Option (Bytes × Bytes) :=
  (rawString bs).bind fun q => if Utf8.check owed q.1 then some q else none

private theorem scanOwed_nil (bs : Bytes) : scanOwed [] bs = scanString bs := by
  rw [scanOwed, nextByteInRange, Option.bind_some]
  cases scanString bs <;> rfl

private theorem textOwed_map {owed owed' : List (UInt8 × UInt8)} (front : Bytes) {bs bs' : Bytes}
    (hraw : rawString bs = (rawString bs').map fun q => (front ++ q.1, q.2))
    (hcheck : ∀ s, Utf8.check owed (front ++ s) = Utf8.check owed' s) :
    textOwed owed bs = (textOwed owed' bs').map fun q => (front ++ q.1, q.2) := by
  rw [textOwed, textOwed, hraw]
  cases rawString bs' with
  | none => rfl
  | some q =>
    rw [Option.map_some, Option.bind_some, Option.bind_some]
    dsimp only
    rw [hcheck]
    split <;> rfl

private theorem textOwed_none {owed : List (UInt8 × UInt8)} (front : Bytes) {bs bs' : Bytes}
    (hraw : rawString bs = (rawString bs').map fun q => (front ++ q.1, q.2))
    (hcheck : ∀ s, Utf8.check owed (front ++ s) = false) : textOwed owed bs = none := by
  rw [textOwed, hraw]
  cases rawString bs' with
  | none => rfl
  | some q =>
    rw [Option.map_some, Option.bind_some]
    dsimp only
    rw [hcheck, if_neg Bool.false_ne_true]

private theorem rawString_of_escape (h : scanEscape bs = some (added, rest)) :
    rawString (92 :: bs) = (rawString rest).map fun q => (added ++ q.1, q.2) := by
  rw [rawString_escape, h, Option.bind_some]

private theorem scanOwed_cons {r : UInt8 × UInt8} {owed : List (UInt8 × UInt8)} {c : UInt8}
    (h : Utf8.within r c = true) (bs : Bytes) :
    scanOwed (r :: owed) (c :: bs) = (scanOwed owed bs).map fun q => (c :: q.1, q.2) := by
  have hwithin : r.1 ≤ c ∧ c ≤ r.2 := of_decide_eq_true h
  rw [scanOwed, scanOwed, nextByteInRange, if_pos hwithin]
  cases nextByteInRange owed bs with
  | none => rfl
  | some r' =>
    rw [Option.map_some, Option.bind_some, Option.bind_some, Option.map_map]
    rfl

private theorem scanOwed_none {r : UInt8 × UInt8} {owed : List (UInt8 × UInt8)} {c : UInt8}
    (h : ¬Utf8.within r c = true) (bs : Bytes) : scanOwed (r :: owed) (c :: bs) = none := by
  have hwithin : ¬(r.1 ≤ c ∧ c ≤ r.2) := fun hboth => h (decide_eq_true hboth)
  rw [scanOwed, nextByteInRange, if_neg hwithin]
  rfl

private theorem rawString_nil : rawString [] = none := by
  rw [rawString, closeQuote.eq_def]
  rfl

private theorem rawString_quote (bs : Bytes) : rawString (34 :: bs) = some ([], bs) := by
  rw [rawString, closeQuote_quote]
  rfl

/-- A byte that is owed goes on with its character, and every other one ends the string wrong. -/
theorem scanOwed_cons_eq {r : UInt8 × UInt8} {owed : List (UInt8 × UInt8)}
    (hr : Tails (r :: owed)) {c : UInt8} {bs : Bytes} (ih : scanOwed owed bs = textOwed owed bs) :
    scanOwed (r :: owed) (c :: bs) = textOwed (r :: owed) (c :: bs) := by
  by_cases hwithin : Utf8.within r c = true
  · obtain ⟨hlo, hhi⟩ := Utf8.within_iff.mp hwithin
    have hbeyond : 0x80 ≤ c.toNat := Nat.le_trans (hr r (List.mem_cons_self ..)).1 hlo
    obtain ⟨hquote, hslash, hcontrol⟩ := plain_of_beyond hbeyond
    rw [scanOwed_cons hwithin, ih,
      textOwed_map [c] (rawString_of_ne hquote hslash hcontrol bs)
        (fun s => Utf8.check_cons_cons hwithin s)]
    rfl
  · rw [scanOwed_none hwithin]
    by_cases hquote : c = 34
    · rw [hquote, textOwed, rawString_quote]
      rfl
    by_cases hslash : c = 92
    · rw [hslash]
      cases hescape : scanEscape bs with
      | none => rw [textOwed, rawString_escape, hescape]; rfl
      | some e =>
        exact (textOwed_none _ (rawString_of_escape hescape)
          ((characters_scanEscape hescape).check_owed hr)).symm
    by_cases hcontrol : c < 32
    · rw [textOwed, rawString_control hquote hslash hcontrol]
      rfl
    · exact (textOwed_none [c]
        (rawString_of_ne hquote hslash (UInt8.not_lt.mp hcontrol) bs)
        (fun s => Utf8.check_of_not_within hwithin s)).symm

/-- Where nothing is owed, a character begins or the string ends. -/
theorem scanOwed_nil_eq {c : UInt8} {bs : Bytes}
    (ih : ∀ owed rest, Tails owed → rest.length ≤ bs.length →
      scanOwed owed rest = textOwed owed rest) :
    scanOwed [] (c :: bs) = textOwed [] (c :: bs) := by
  have ih' : ∀ rest, rest.length ≤ bs.length → scanString rest = textOwed [] rest := by
    intro rest hle
    rw [← scanOwed_nil, ih [] rest tails_nil hle]
  rw [scanOwed_nil]
  by_cases hquote : c = 34
  · rw [hquote, scanString_quote, textOwed, rawString_quote]
    rfl
  by_cases hslash : c = 92
  · rw [hslash, scanString_escape]
    cases hescape : scanEscape bs with
    | none =>
      rw [textOwed, rawString_escape, hescape]
      rfl
    | some e =>
      have hle := length_scanEscape hescape
      rw [Option.bind_some, ih' e.2 hle, textOwed_map _ (rawString_of_escape hescape)
        (characters_scanEscape hescape).whole]
  by_cases hcontrol : c < 32
  · rw [scanString_control hquote hslash hcontrol, textOwed,
      rawString_control hquote hslash hcontrol]
    rfl
  have hraw := rawString_of_ne hquote hslash (UInt8.not_lt.mp hcontrol) bs
  by_cases hascii : c < 0x80
  · have hlt : c.toNat < 0x80 := UInt8.lt_iff_toNat_lt.mp hascii
    have hfirst : Utf8.trails c = some [] := by rw [Utf8.trails_eq, if_pos hlt]
    rw [scanString_ascii hquote hslash (UInt8.not_lt.mp hcontrol) hascii,
      ih' bs (Nat.le_refl _), textOwed_map [c] hraw (Utf8.check_nil_cons hfirst)]
    rfl
  · have hbeyond : 0x80 ≤ c := UInt8.not_lt.mp hascii
    rw [scanString_beyond hbeyond, byteRanges_eq hbeyond]
    cases howed : Utf8.trails c with
    | none =>
      rw [Option.bind_none]
      exact (textOwed_none [c] hraw (Utf8.check_of_trails_none howed)).symm
    | some owed =>
      rw [textOwed_map [c] hraw (Utf8.check_nil_cons howed),
        ← ih owed bs (tails_of_trails howed) (Nat.le_refl _), scanOwed, Option.bind_some,
        Option.map_bind]
      simp only [Function.comp_def, Option.map_map, List.singleton_append]

/-- Checking the bytes one by one comes to the same as checking the complete string. -/
theorem scanOwed_eq {owed : List (UInt8 × UInt8)} (howed : Tails owed) (bs : Bytes) :
    scanOwed owed bs = textOwed owed bs := by
  induction hlen : bs.length using Nat.strongRecOn generalizing bs owed with
  | ind len ih =>
    cases bs with
    | nil =>
      rw [textOwed, rawString_nil]
      cases owed with
      | nil => rw [scanOwed_nil, scanString]; rfl
      | cons r owed => rfl
    | cons c bs =>
      rw [List.length_cons] at hlen
      cases owed with
      | nil =>
        exact scanOwed_nil_eq fun owed rest howed hle =>
          ih rest.length (by omega) howed rest rfl
      | cons r owed =>
        exact scanOwed_cons_eq howed
          (ih bs.length (by omega) (fun r' hr' => howed r' (List.mem_cons_of_mem _ hr')) bs rfl)

/-- The lexer reads the strings of the grammar. -/
theorem scanString_eq (bs : Bytes) : scanString bs = JsonText.string bs := by
  rw [string_eq_rawString, ← scanOwed_nil, scanOwed_eq tails_nil, textOwed]

end ChatRoom.Nlohmann
