import ChatRoom.Core.JsonParts
import ChatRoom.Nlohmann.Serializer
import ChatRoom.Nlohmann.Value

/-!
# What dump prints

`dump` throws exactly when a string in the value is not UTF-8. Otherwise it prints a JSON text,
and the text spells the value.
-/

namespace ChatRoom.Nlohmann

open ChatRoom.Core Chat JsonText

/-! ## Strings -/

private theorem hexDigit_hexChar {n : Nat} (h : n < 16) :
    JsonText.hexDigit (hexChar n) = some n := by
  have hall : ∀ n < 16, JsonText.hexDigit (hexChar n) = some n := by decide
  exact hall n h

/-- The forms in which a byte is written. -/
theorem escapeByte_cases (b : UInt8) :
    (∃ e, escapeByte b = [92, e] ∧ e ≠ 117 ∧ simpleEscape e = some b) ∨
      (b < 32 ∧ escapeByte b = unicodeEscape b.toNat) ∨
      (escapeByte b = [b] ∧ 32 ≤ b ∧ b ≠ 34 ∧ b ≠ 92) := by
  have hnat : ∀ n : Nat, n < 256 → (b.toNat = n ↔ b = UInt8.ofNat n) := by
    intro n hn
    rw [← UInt8.toNat_inj, Utf8.toNat_ofNat hn]
  rw [escapeByte, escapeCodepoint]
  split_ifs with h1 h2 h3 h4 h5 h6 h7 h8
  · rw [(hnat 8 (by decide)).mp h1]
    exact Or.inl ⟨98, rfl, by decide, rfl⟩
  · rw [(hnat 9 (by decide)).mp h2]
    exact Or.inl ⟨116, rfl, by decide, rfl⟩
  · rw [(hnat 10 (by decide)).mp h3]
    exact Or.inl ⟨110, rfl, by decide, rfl⟩
  · rw [(hnat 12 (by decide)).mp h4]
    exact Or.inl ⟨102, rfl, by decide, rfl⟩
  · rw [(hnat 13 (by decide)).mp h5]
    exact Or.inl ⟨114, rfl, by decide, rfl⟩
  · rw [(hnat 34 (by decide)).mp h6]
    exact Or.inl ⟨34, rfl, by decide, rfl⟩
  · rw [(hnat 92 (by decide)).mp h7]
    exact Or.inl ⟨92, rfl, by decide, rfl⟩
  · refine Or.inr (Or.inl ⟨?_, rfl⟩)
    rw [UInt8.lt_iff_toNat_lt]
    exact Nat.lt_of_le_of_lt h8 (by decide)
  · refine Or.inr (Or.inr ⟨rfl, ?_, fun h => h6 ?_, fun h => h7 ?_⟩)
    · rw [UInt8.le_iff_toNat_le]
      exact Nat.lt_of_not_le h8
    · rw [h]
      rfl
    · rw [h]
      rfl

private theorem hexChar_plain {n : Nat} (h : n < 16) : hexChar n ≠ 34 ∧ hexChar n ≠ 92 := by
  have hall : ∀ n < 16, hexChar n ≠ 34 ∧ hexChar n ≠ 92 := by decide
  exact hall n h

private theorem closeQuote_unicodeEscape (code : Nat) (bs : Bytes) :
    closeQuote (unicodeEscape code ++ bs) =
      (closeQuote bs).map fun r => (unicodeEscape code ++ r.1, r.2) := by
  have hplain : ∀ k, hexChar (code / k % 16) ≠ 34 ∧ hexChar (code / k % 16) ≠ 92 := fun k =>
    hexChar_plain (Nat.mod_lt _ (by decide))
  have hlast : hexChar (code % 16) ≠ 34 ∧ hexChar (code % 16) ≠ 92 :=
    hexChar_plain (Nat.mod_lt _ (by decide))
  simp only [unicodeEscape, List.cons_append, List.nil_append, closeQuote_escape,
    closeQuote_of_ne (hplain _).1 (hplain _).2, closeQuote_of_ne hlast.1 hlast.2, Option.map_map]
  rfl

private theorem unescape_unicodeEscape {code : Nat} (h : code < 0x80) (bs : Bytes) :
    unescape (unicodeEscape code ++ bs) = (unescape bs).map fun t => UInt8.ofNat code :: t := by
  have hword : hexWord (hexChar (code / 4096 % 16)) (hexChar (code / 256 % 16))
      (hexChar (code / 16 % 16)) (hexChar (code % 16)) = some code := by
    simp only [hexWord, hexDigit_hexChar (Nat.mod_lt _ (by decide : 0 < 16)), Option.some.injEq]
    omega
  have hutf8 : utf8 code = [UInt8.ofNat code] := by
    rw [utf8, Utf8.utf8EncodeChar_ofNat (Or.inl (by omega)), Utf8.encodeNat, if_pos (by omega)]
  simp only [unicodeEscape, List.cons_append, List.nil_append]
  rw [unescape.eq_def]
  simp only [if_pos, hword, hutf8, List.cons_append, List.nil_append]
  rw [if_neg (by omega), if_neg (by omega)]

/-- The closing quote of an escaped string is the one behind it. -/
theorem closeQuote_escaped (s rest : Bytes) :
    closeQuote (s.flatMap escapeByte ++ 34 :: rest) = some (s.flatMap escapeByte, rest) := by
  induction s with
  | nil => exact closeQuote_quote rest
  | cons b s ih =>
    rw [List.flatMap_cons, List.append_assoc]
    rcases escapeByte_cases b with ⟨e, heq, _, _⟩ | ⟨_, heq⟩ | ⟨heq, _, hquote, hslash⟩
    · rw [heq, List.cons_append, List.cons_append, List.nil_append, closeQuote_escape, ih]
      rfl
    · rw [heq, closeQuote_unicodeEscape, ih]
      rfl
    · rw [heq, List.cons_append, List.nil_append, closeQuote_of_ne hquote hslash, ih]
      rfl

private theorem unescape_simple {e b : UInt8} (he : e ≠ 117) (h : simpleEscape e = some b)
    (bs : Bytes) :
    unescape (92 :: e :: bs) = (unescape bs).map fun t => b :: t := by
  rw [unescape.eq_def]
  simp only [if_pos, if_neg he, h]

private theorem unescape_escaped (s : Bytes) : unescape (s.flatMap escapeByte) = some s := by
  induction s with
  | nil => rfl
  | cons b s ih =>
    rw [List.flatMap_cons]
    rcases escapeByte_cases b with ⟨e, heq, he, hsimple⟩ | ⟨hlow, heq⟩ | ⟨heq, hcontrol, _, hslash⟩
    · rw [heq, List.cons_append, List.cons_append, List.nil_append, unescape_simple he hsimple, ih]
      rfl
    · rw [UInt8.lt_iff_toNat_lt] at hlow
      have hcode : b.toNat < 0x80 := Nat.lt_trans hlow (by decide)
      rw [heq, unescape_unicodeEscape hcode, ih, UInt8.ofNat_toNat]
      rfl
    · rw [heq, List.cons_append, List.nil_append, unescape_of_ne hslash hcontrol, ih]
      rfl

/-- A printed string is read back. -/
theorem string_escaped {s : Bytes} (h : s.toByteArray.IsValidUTF8) (rest : Bytes) :
    JsonText.string (s.flatMap escapeByte ++ 34 :: rest) = some (s, rest) :=
  string_eq_some_iff.mpr ⟨_, closeQuote_escaped s rest, unescape_escaped s, h⟩

/-! ## Which values are printed -/

section Printed

variable {toChars : BitVec 64 → Bytes} {elements : List Json} {members : List (Bytes × Json)}

private theorem dumpEscaped_isSome_iff {s : Bytes} :
    (dumpEscaped s).isSome = true ↔ s.toByteArray.IsValidUTF8 := by
  rw [dumpEscaped_eq]
  split
  · next h => exact iff_of_true rfl h
  · next h => exact iff_of_false Bool.false_ne_true h

private theorem dumpEscaped_eq_some_iff {s t : Bytes} :
    dumpEscaped s = some t ↔ s.toByteArray.IsValidUTF8 ∧ t = s.flatMap escapeByte := by
  rw [dumpEscaped_eq]
  split
  · next h => exact ⟨fun heq => ⟨h, (Option.some.inj heq).symm⟩, fun heq => congrArg some heq.2.symm⟩
  · next h => exact ⟨nofun, fun heq => absurd heq.1 h⟩

private theorem dumpElements_cons_eq_some_iff {e e' : Json} {rest : List Json} {t : Bytes} :
    dumpElements toChars (e :: e' :: rest) = some t ↔
      ∃ t₁ t₂, dump toChars e = some t₁ ∧ dumpElements toChars (e' :: rest) = some t₂ ∧
        t = t₁ ++ 44 :: t₂ := by
  have heq : dumpElements toChars (e :: e' :: rest) = (dump toChars e).bind fun t₁ =>
      (dumpElements toChars (e' :: rest)).bind fun t₂ => some (t₁ ++ [44] ++ t₂) := rfl
  rw [heq, Option.bind_eq_some_iff]
  simp only [Option.bind_eq_some_iff, Option.some.injEq, List.append_assoc, List.cons_append,
    List.nil_append]
  constructor
  · rintro ⟨t₁, h₁, t₂, h₂, rfl⟩
    exact ⟨t₁, t₂, h₁, h₂, rfl⟩
  · rintro ⟨t₁, t₂, h₁, h₂, rfl⟩
    exact ⟨t₁, h₁, t₂, h₂, rfl⟩

/-- The text of a member. -/
theorem dumpMembers_singleton_eq_some_iff {m : Bytes × Json} {t : Bytes} :
    dumpMembers toChars [m] = some t ↔ m.1.toByteArray.IsValidUTF8 ∧
      ∃ v, dump toChars m.2 = some v ∧ t = 34 :: (m.1.flatMap escapeByte ++ 34 :: 58 :: v) := by
  have heq : dumpMembers toChars [m] = (dumpEscaped m.1).bind fun key =>
      (dump toChars m.2).bind fun v => some ([34] ++ key ++ [34, 58] ++ v) := rfl
  rw [heq, Option.bind_eq_some_iff]
  simp only [Option.bind_eq_some_iff, Option.some.injEq, dumpEscaped_eq_some_iff,
    List.append_assoc, List.cons_append, List.nil_append]
  constructor
  · rintro ⟨_, ⟨hvalid, rfl⟩, v, hv, rfl⟩
    exact ⟨hvalid, v, hv, rfl⟩
  · rintro ⟨hvalid, v, hv, rfl⟩
    exact ⟨_, ⟨hvalid, rfl⟩, v, hv, rfl⟩

private theorem dumpMembers_cons_eq_some_iff {m m' : Bytes × Json} {rest : List (Bytes × Json)}
    {t : Bytes} :
    dumpMembers toChars (m :: m' :: rest) = some t ↔
      ∃ t₁ t₂, dumpMembers toChars [m] = some t₁ ∧ dumpMembers toChars (m' :: rest) = some t₂ ∧
        t = t₁ ++ 44 :: t₂ := by
  have heq : dumpMembers toChars (m :: m' :: rest) = (dumpEscaped m.1).bind fun key =>
      (dump toChars m.2).bind fun v => (dumpMembers toChars (m' :: rest)).bind fun t₂ =>
        some ([34] ++ key ++ [34, 58] ++ v ++ [44] ++ t₂) := rfl
  have hone : dumpMembers toChars [m] = (dumpEscaped m.1).bind fun key =>
      (dump toChars m.2).bind fun v => some ([34] ++ key ++ [34, 58] ++ v) := rfl
  rw [heq, hone]
  simp only [Option.bind_eq_some_iff, Option.some.injEq, List.append_assoc]
  constructor
  · rintro ⟨key, hkey, v, hv, t₂, h₂, rfl⟩
    refine ⟨_, t₂, ⟨key, hkey, v, hv, rfl⟩, h₂, ?_⟩
    simp only [List.append_assoc, List.cons_append, List.nil_append]
  · rintro ⟨t₁, t₂, ⟨key, hkey, v, hv, rfl⟩, h₂, rfl⟩
    refine ⟨key, hkey, v, hv, t₂, h₂, ?_⟩
    simp only [List.append_assoc, List.cons_append, List.nil_append]

private theorem dumpElements_isSome_iff
    (ih : ∀ e ∈ elements, (dump toChars e).isSome = true ↔ e.Utf8) :
    (dumpElements toChars elements).isSome = true ↔ ∀ e ∈ elements, e.Utf8 := by
  induction elements with
  | nil => exact iff_of_true rfl nofun
  | cons e rest ihrest =>
    rw [List.forall_mem_cons]
    have hfirst := ih e (List.mem_cons_self ..)
    cases rest with
    | nil =>
      rw [← hfirst]
      exact (and_iff_left nofun).symm
    | cons e' rest =>
      rw [← ihrest fun e he => ih e (List.mem_cons_of_mem _ he), ← hfirst,
        Option.isSome_iff_exists, Option.isSome_iff_exists, Option.isSome_iff_exists]
      constructor
      · rintro ⟨t, ht⟩
        obtain ⟨t₁, t₂, h₁, h₂, _⟩ := dumpElements_cons_eq_some_iff.mp ht
        exact ⟨⟨t₁, h₁⟩, t₂, h₂⟩
      · rintro ⟨⟨t₁, h₁⟩, t₂, h₂⟩
        exact ⟨_, dumpElements_cons_eq_some_iff.mpr ⟨t₁, t₂, h₁, h₂, rfl⟩⟩

private theorem dumpMembers_isSome_iff
    (ih : ∀ m ∈ members, (dump toChars m.2).isSome = true ↔ m.2.Utf8) :
    (dumpMembers toChars members).isSome = true ↔
      ∀ m ∈ members, m.1.toByteArray.IsValidUTF8 ∧ m.2.Utf8 := by
  have hone : ∀ m ∈ members, (dumpMembers toChars [m]).isSome = true ↔
      m.1.toByteArray.IsValidUTF8 ∧ m.2.Utf8 := by
    intro m hm
    rw [← ih m hm, Option.isSome_iff_exists, Option.isSome_iff_exists]
    simp only [dumpMembers_singleton_eq_some_iff]
    constructor
    · rintro ⟨t, hvalid, v, hv, _⟩
      exact ⟨hvalid, v, hv⟩
    · rintro ⟨hvalid, v, hv⟩
      exact ⟨_, hvalid, v, hv, rfl⟩
  clear ih
  induction members with
  | nil => exact iff_of_true rfl nofun
  | cons m rest ihrest =>
    rw [List.forall_mem_cons, ← hone m (List.mem_cons_self ..)]
    cases rest with
    | nil => exact (and_iff_left nofun).symm
    | cons m' rest =>
      have hrest : (dumpMembers toChars (m' :: rest)).isSome = true ↔
          ∀ m ∈ m' :: rest, m.1.toByteArray.IsValidUTF8 ∧ m.2.Utf8 :=
        ihrest fun m hm => hone m (List.mem_cons_of_mem _ hm)
      rw [← hrest, Option.isSome_iff_exists, Option.isSome_iff_exists, Option.isSome_iff_exists]
      constructor
      · rintro ⟨t, ht⟩
        obtain ⟨t₁, t₂, h₁, h₂, _⟩ := dumpMembers_cons_eq_some_iff.mp ht
        exact ⟨⟨t₁, h₁⟩, t₂, h₂⟩
      · rintro ⟨⟨t₁, h₁⟩, t₂, h₂⟩
        exact ⟨_, dumpMembers_cons_eq_some_iff.mpr ⟨t₁, t₂, h₁, h₂, rfl⟩⟩

/-- `dump` throws exactly when some string in the value, or some key, is not UTF-8. -/
theorem dump_isSome_iff (toChars : BitVec 64 → Bytes) (j : Json) :
    (dump toChars j).isSome = true ↔ j.Utf8 := by
  induction j using Json.induction with
  | null => exact iff_of_true rfl (Json.every_null_iff.mpr trivial)
  | boolean b => exact iff_of_true rfl (Json.every_boolean_iff.mpr trivial)
  | numberInteger n => exact iff_of_true rfl (Json.every_numberInteger_iff.mpr trivial)
  | numberFloat x => exact iff_of_true rfl (Json.every_numberFloat_iff.mpr trivial)
  | string s =>
    rw [dump, Option.isSome_map, dumpEscaped_isSome_iff]
    exact (Json.every_string_iff (P := Json.Utf8Here)).symm
  | array elements ih =>
    rw [dump, Option.isSome_map, dumpElements_isSome_iff ih, Json.Utf8, Json.every_array_iff]
    exact (and_iff_right trivial).symm
  | object members ih =>
    rw [dump, Option.isSome_map, dumpMembers_isSome_iff ih, Json.Utf8, Json.every_object_iff]
    exact ⟨fun h => ⟨fun m hm => (h m hm).1, fun m hm => (h m hm).2⟩,
      fun h m hm => ⟨h.1 m hm, h.2 m hm⟩⟩

end Printed

/-! ## The text spells the value -/

/-- How the library reads a number that is no integer: not at all if it overflows. -/
def readFloat (strtod : Bytes → BitVec 64) (lexeme : Bytes) : Option (BitVec 64) :=
  if isfinite (strtod lexeme) then some (strtod lexeme) else none

/-- The floating-point number of a text that does not spell an integer. -/
def floatOf (strtod : Bytes → BitVec 64) (lexeme : Bytes) : Option (BitVec 64) :=
  if (integerOf lexeme).isSome then none else readFloat strtod lexeme

/-- What is assumed of `to_chars` and `strtod` at a finite number: it is printed as a JSON number
with a point or an exponent, and read back. -/
structure FloatText (toChars : BitVec 64 → Bytes) (strtod : Bytes → BitVec 64) (x : BitVec 64) :
    Prop where
  number : isNumber (toChars x) = true
  fraction : 46 ∈ toChars x ∨ 101 ∈ toChars x
  strtod : strtod (toChars x) = x

private theorem integerOf_eq_none {lexeme : Bytes} {c : UInt8} (hc : c ∈ lexeme) (hminus : c ≠ 45)
    (hdigit : Decimal.isDigit c = false) : integerOf lexeme = none := by
  have hnot : ∀ {bs : Bytes}, c ∈ bs → ¬bs.all Decimal.isDigit = true := by
    intro bs hmem hall
    rw [List.all_eq_true.mp hall c hmem] at hdigit
    cases hdigit
  cases lexeme with
  | nil => rfl
  | cons d rest =>
    rw [integerOf]
    split
    · next hd =>
      rw [if_neg (hnot ((List.mem_cons.mp hc).resolve_left fun heq => hminus (heq.trans hd)))]
    · rw [if_neg (hnot hc)]

/-- The text of a number is read back as the number. -/
theorem FloatText.floatOf_eq {toChars : BitVec 64 → Bytes} {strtod : Bytes → BitVec 64}
    {x : BitVec 64} (h : FloatText toChars strtod x) (hx : isfinite x = true) :
    floatOf strtod (toChars x) = some x := by
  have hinteger : integerOf (toChars x) = none := by
    rcases h.fraction with hmem | hmem
    · exact integerOf_eq_none hmem (by decide) rfl
    · exact integerOf_eq_none hmem (by decide) rfl
  rw [floatOf, hinteger, readFloat, h.strtod, if_pos hx]
  rfl

private theorem isNumberByte_of_afterDigits {bs rest : Bytes} (h : afterDigits bs = some rest)
    (hrest : ∀ c ∈ rest, isNumberByte c = true) : ∀ c ∈ bs, isNumberByte c = true := by
  cases bs with
  | nil => cases h
  | cons d bs =>
    rw [afterDigits] at h
    split at h
    · next hd =>
      cases h
      refine List.forall_mem_cons.mpr ⟨isNumberByte_of_isDigit hd, fun c hc => ?_⟩
      rw [← List.takeWhile_append_dropWhile (p := Decimal.isDigit) (l := bs)] at hc
      rcases List.mem_append.mp hc with hc | hc
      · exact isNumberByte_of_isDigit (List.mem_takeWhile_imp hc)
      · exact hrest c hc
    · cases h

private theorem isNumberByte_of_isExponent {bs : Bytes} (h : isExponent bs = true) :
    ∀ c ∈ bs, isNumberByte c = true := by
  cases bs with
  | nil => nofun
  | cons c bs =>
    rw [isExponent, decide_eq_true_eq] at h
    obtain ⟨hc, hbs⟩ := h
    refine List.forall_mem_cons.mpr ⟨by rcases hc with rfl | rfl <;> rfl, ?_⟩
    rcases hbs with hbs | ⟨sign, hsign, hkind, hbs⟩
    · exact isNumberByte_of_afterDigits hbs nofun
    · cases bs with
      | nil => cases hsign
      | cons d bs =>
        cases hsign
        exact List.forall_mem_cons.mpr ⟨by rcases hkind with rfl | rfl <;> rfl,
          isNumberByte_of_afterDigits hbs nofun⟩

private theorem isNumberByte_of_isFraction {bs : Bytes} (h : isFraction bs = true) :
    ∀ c ∈ bs, isNumberByte c = true := by
  cases bs with
  | nil => nofun
  | cons c bs =>
    rw [isFraction] at h
    split at h
    · next hpoint =>
      split at h
      · next rest hrest =>
        exact List.forall_mem_cons.mpr ⟨by rw [hpoint]; rfl,
          isNumberByte_of_afterDigits hrest (isNumberByte_of_isExponent h)⟩
      · cases h
    · exact isNumberByte_of_isExponent h

private theorem isNumberByte_of_isUnsigned {bs : Bytes} (h : isUnsigned bs = true) :
    ∀ c ∈ bs, isNumberByte c = true := by
  cases bs with
  | nil => nofun
  | cons c bs =>
    rw [isUnsigned] at h
    split at h
    · next hzero =>
      exact List.forall_mem_cons.mpr ⟨by rw [hzero]; rfl, isNumberByte_of_isFraction h⟩
    · split at h
      · next hdigit =>
        have hafter : afterDigits (c :: bs) = some (bs.dropWhile Decimal.isDigit) := if_pos hdigit
        exact isNumberByte_of_afterDigits hafter (isNumberByte_of_isFraction h)
      · cases h

/-- A number has only bytes of numbers, and starts with a digit or a minus sign. -/
theorem isNumberByte_of_isNumber {bs : Bytes} (h : isNumber bs = true) :
    ∀ c ∈ bs, isNumberByte c = true := by
  cases bs with
  | nil => nofun
  | cons c bs =>
    rw [isNumber] at h
    split at h
    · next hminus =>
      exact List.forall_mem_cons.mpr ⟨by rw [hminus]; rfl, isNumberByte_of_isUnsigned h⟩
    · exact isNumberByte_of_isUnsigned h

/-- A number begins with a minus sign or a digit. -/
theorem head_of_isNumber {bs : Bytes} (h : isNumber bs = true) :
    ∃ c rest, bs = c :: rest ∧ (c = 45 ∨ Decimal.isDigit c = true) := by
  cases bs with
  | nil => cases h
  | cons c bs =>
    refine ⟨c, bs, rfl, ?_⟩
    rw [isNumber] at h
    split at h
    · next hminus => exact Or.inl hminus
    · rw [isUnsigned] at h
      split at h
      · next hzero =>
        rw [hzero]
        exact Or.inr rfl
      · split at h
        · next hdigit => exact Or.inr hdigit
        · cases h

/-- A number is read up to where it stops. -/
theorem value_isNumber {lexeme : Bytes} (h : isNumber lexeme = true) {tail : Bytes}
    (hstops : Stops tail) (n : Nat) :
    value (n + 1) (lexeme ++ tail) = some (.number lexeme, tail) := by
  have hbytes := isNumberByte_of_isNumber h
  obtain ⟨c, rest, rfl, hc⟩ := head_of_isNumber h
  have hvalue := value_number hc (rest ++ tail) n
  rw [List.cons_append, hvalue, ← List.cons_append]
  simp only [number, List.takeWhile_append_of_pos hbytes, List.dropWhile_append_of_pos hbytes,
    takeWhile_of_stops hstops, dropWhile_of_stops hstops, List.append_nil, h, if_true]

/-- The text is that of a tree, whatever follows it. -/
structure Reads (t : Bytes) (tree : Tree) : Prop where
  value : ∀ n tail, t.length ≤ n → Stops tail → JsonText.value n (t ++ tail) = some (tree, tail)
  starts : ∃ c rest, t = c :: rest ∧ JsonText.isSpace c = false ∧ c ≠ 93

private theorem Reads.of_value {c : UInt8} {rest : Bytes} {tree : Tree}
    (hc : JsonText.isSpace c = false ∧ c ≠ 93)
    (h : ∀ n tail, (c :: rest).length ≤ n + 1 → Stops tail →
      JsonText.value (n + 1) (c :: rest ++ tail) = some (tree, tail)) : Reads (c :: rest) tree where
  value n tail hn hstops := by
    cases n with
    | zero => exact absurd hn (Nat.not_succ_le_zero _)
    | succ n => exact h n tail hn hstops
  starts := ⟨c, rest, rfl, hc⟩

/-- A text that is read as a tree is one as a whole. -/
theorem Reads.parse {t : Bytes} {tree : Tree} (h : Reads t tree) : JsonText.parse t = some tree := by
  have hvalue := h.value t.length [] (Nat.le_refl _) nofun
  rw [List.append_nil] at hvalue
  exact parse_eq_some_iff.mpr ⟨t.length, [], hvalue, rfl⟩

private theorem skip_cons {c : UInt8} (h : JsonText.isSpace c = false) (bs : Bytes) :
    skip (c :: bs) = c :: bs :=
  List.dropWhile_cons_of_neg (ne_true_of_eq_false h)

section Reading

variable {toChars : BitVec 64 → Bytes} {float : Bytes → Option (BitVec 64)}

/-- The value is printed as a text that spells it. -/
def Spelled (toChars : BitVec 64 → Bytes) (float : Bytes → Option (BitVec 64)) (j : Json) : Prop :=
  ∀ t, dump toChars j = some t → ∃ tree, Reads t tree ∧ Spells float tree j

private theorem stops_comma (bs : Bytes) : Stops (44 :: bs) := by
  rintro c hc
  cases hc
  rfl

private theorem stops_bracket (bs : Bytes) : Stops (93 :: bs) := by
  rintro c hc
  cases hc
  rfl

private theorem stops_brace (bs : Bytes) : Stops (125 :: bs) := by
  rintro c hc
  cases hc
  rfl

/-- The elements of an array between two brackets. -/
theorem sequence_elements {elements : List Json} (hne : elements ≠ [])
    (ih : ∀ e ∈ elements, Spelled toChars float e) {t : Bytes}
    (ht : dumpElements toChars elements = some t) :
    ∃ trees, List.Forall₂ (Spells float) trees elements ∧
      (∃ c rest, t = c :: rest ∧ JsonText.isSpace c = false ∧ c ≠ 93) ∧
      ∀ n m tail, t.length ≤ n → t.length ≤ m →
        sequence (JsonText.value n) 93 m (t ++ 93 :: tail) = some (trees, tail) := by
  induction elements generalizing t with
  | nil => exact absurd rfl hne
  | cons e rest ihrest =>
    cases rest with
    | nil =>
      obtain ⟨tree, hreads, hspells⟩ := ih e (List.mem_cons_self ..) t ht
      refine ⟨[tree], .cons hspells .nil, hreads.starts, fun n m tail hn hm => ?_⟩
      obtain ⟨c, rest, rfl, _⟩ := hreads.starts
      obtain ⟨m, rfl⟩ := Nat.exists_eq_add_of_lt (Nat.lt_of_lt_of_le (Nat.succ_pos _) hm)
      have hitem := hreads.value n (93 :: tail) hn (stops_bracket tail)
      exact @sequence_close _ _ _ [] _ _ _ hitem rfl rfl _
    | cons e' rest =>
      obtain ⟨t₁, t₂, h₁, h₂, rfl⟩ := dumpElements_cons_eq_some_iff.mp ht
      obtain ⟨tree, hreads, hspells⟩ := ih e (List.mem_cons_self ..) t₁ h₁
      obtain ⟨trees, hall, _, hsequence⟩ := ihrest (List.cons_ne_nil _ _)
        (fun e he => ih e (List.mem_cons_of_mem _ he)) h₂
      obtain ⟨c, first, rfl, hstarts⟩ := hreads.starts
      refine ⟨tree :: trees, .cons hspells hall, ⟨c, _, rfl, hstarts⟩, fun n m tail hn hm => ?_⟩
      simp only [List.length_append, List.length_cons] at hn hm
      obtain ⟨m, rfl⟩ := Nat.exists_eq_add_of_lt (show 0 < m by omega)
      have hitem := hreads.value n (44 :: (t₂ ++ 93 :: tail))
        (by rw [List.length_cons]; omega) (stops_comma _)
      have hcomma : (44 : UInt8) ≠ 93 := by decide
      have hsplit : c :: first ++ 44 :: t₂ ++ 93 :: tail =
          c :: first ++ 44 :: (t₂ ++ 93 :: tail) := List.append_assoc ..
      rw [hsplit, sequence_comma hitem hcomma, hsequence n _ tail (by omega) (by omega)]
      rfl

/-- A member in front of a text that ends it. -/
theorem member_dumped {m : Bytes × Json} (ih : Spelled toChars float m.2) {t : Bytes}
    (ht : dumpMembers toChars [m] = some t) :
    ∃ tree, Spells float tree m.2 ∧ 0 < t.length ∧ t.head? = some 34 ∧
      ∀ n tail, t.length ≤ n → Stops tail →
        member (JsonText.value n) (t ++ tail) = some ((m.1, tree), tail) := by
  obtain ⟨hvalid, v, hv, rfl⟩ := dumpMembers_singleton_eq_some_iff.mp ht
  obtain ⟨tree, hreads, hspells⟩ := ih v hv
  refine ⟨tree, hspells, Nat.succ_pos _, rfl, fun n tail hn hstops => ?_⟩
  simp only [List.length_append, List.length_cons] at hn
  have hvalue := hreads.value n tail (by omega) hstops
  have hsplit : 34 :: (m.1.flatMap escapeByte ++ 34 :: 58 :: v) ++ tail =
      34 :: (m.1.flatMap escapeByte ++ 34 :: 58 :: (v ++ tail)) := by
    simp only [List.append_assoc, List.cons_append]
  rw [hsplit, member, expect_cons rfl, Option.bind_some, string_escaped hvalid, Option.bind_some,
    expect_cons rfl, Option.bind_some, hvalue]
  rfl

/-- The members of an object between two braces. -/
theorem sequence_members {members : List (Bytes × Json)} (hne : members ≠ [])
    (ih : ∀ m ∈ members, Spelled toChars float m.2) {t : Bytes}
    (ht : dumpMembers toChars members = some t) :
    ∃ trees : List (Bytes × Tree), trees.map Prod.fst = members.map Prod.fst ∧
      List.Forall₂ (Spells float) (trees.map Prod.snd) (members.map Prod.snd) ∧
      t.head? = some 34 ∧ ∀ n k tail, t.length ≤ n → t.length ≤ k →
        sequence (member (JsonText.value n)) 125 k (t ++ 125 :: tail) = some (trees, tail) := by
  induction members generalizing t with
  | nil => exact absurd rfl hne
  | cons m rest ihrest =>
    cases rest with
    | nil =>
      obtain ⟨tree, hspells, hpos, hhead, hmember⟩ := member_dumped (ih m (List.mem_cons_self ..)) ht
      refine ⟨[(m.1, tree)], rfl, .cons hspells .nil, hhead, fun n k tail hn hk => ?_⟩
      obtain ⟨k, rfl⟩ := Nat.exists_eq_add_of_lt (Nat.lt_of_lt_of_le hpos hk)
      have hitem := hmember n (125 :: tail) hn (stops_brace tail)
      exact @sequence_close _ _ _ [] _ _ _ hitem rfl rfl _
    | cons m' rest =>
      obtain ⟨t₁, t₂, h₁, h₂, rfl⟩ := dumpMembers_cons_eq_some_iff.mp ht
      obtain ⟨tree, hspells, hpos, hhead, hmember⟩ := member_dumped (ih m (List.mem_cons_self ..)) h₁
      obtain ⟨trees, hkeys, hall, _, hsequence⟩ := ihrest (List.cons_ne_nil _ _)
        (fun m hm => ih m (List.mem_cons_of_mem _ hm)) h₂
      refine ⟨(m.1, tree) :: trees, ?_, .cons hspells hall, ?_, fun n k tail hn hk => ?_⟩
      · rw [List.map_cons, hkeys]
        rfl
      · rw [List.head?_append, hhead]
        rfl
      · simp only [List.length_append, List.length_cons] at hn hk
        obtain ⟨k, rfl⟩ := Nat.exists_eq_add_of_lt (show 0 < k by omega)
        have hitem := hmember n (44 :: (t₂ ++ 125 :: tail)) (by omega) (stops_comma _)
        have hcomma : (44 : UInt8) ≠ 125 := by decide
        have hsplit : t₁ ++ 44 :: t₂ ++ 125 :: tail = t₁ ++ 44 :: (t₂ ++ 125 :: tail) :=
          List.append_assoc ..
        rw [hsplit, sequence_comma hitem hcomma, hsequence n _ tail (by omega) (by omega)]
        rfl

private theorem reads_isNumber {lexeme : Bytes} (h : isNumber lexeme = true) :
    Reads lexeme (.number lexeme) := by
  obtain ⟨c, rest, rfl, hc⟩ := head_of_isNumber h
  refine .of_value ?_ fun n tail _ hstops => value_isNumber h hstops n
  rcases hc with rfl | hdigit
  · exact ⟨rfl, by decide⟩
  · refine ⟨decide_eq_false ?_, ?_⟩
    · rintro (rfl | rfl | rfl | rfl) <;> exact absurd hdigit (by decide)
    · rintro rfl
      exact absurd hdigit (by decide)

private theorem value_word {w : Bytes} {tree : Tree}
    (hw : ∀ n tail, JsonText.value (n + 1) (w ++ tail) = word w tree (w ++ tail)) (n : Nat)
    (tail : Bytes) : JsonText.value (n + 1) (w ++ tail) = some (tree, tail) := by
  rw [hw, word, if_pos (List.isPrefixOf_iff_prefix.mpr (List.prefix_append w tail)),
    List.drop_left]

/-- Every finite floating-point number in the value is printed as a text that is read back. -/
def FloatsRead (toChars : BitVec 64 → Bytes) (float : Bytes → Option (BitVec 64)) : Json → Prop :=
  Json.Every fun j => ∀ x, j = .numberFloat x → isfinite x = true →
    isNumber (toChars x) = true ∧ float (toChars x) = some x

/-- The text of every value that the library can hold spells it, if it has no number that is
infinite or `NaN`. -/
theorem spelled {j : Json} (hfloat : FloatsRead toChars float j) (hheld : j.Held)
    (hfinite : j.Finite) : Spelled toChars float j := by
  induction j using Json.induction with
  | null =>
    rintro _ ⟨⟩
    exact ⟨.null, .of_value ⟨rfl, by decide⟩ fun n tail _ _ =>
      value_word (w := [110, 117, 108, 108]) (fun _ _ => rfl) n tail, .null⟩
  | boolean b =>
    rintro _ ⟨⟩
    cases b with
    | true => exact ⟨.boolean true, .of_value ⟨rfl, by decide⟩ fun n tail _ _ =>
        value_word (w := [116, 114, 117, 101]) (fun _ _ => rfl) n tail, .boolean true⟩
    | false => exact ⟨.boolean false, .of_value ⟨rfl, by decide⟩ fun n tail _ _ =>
        value_word (w := [102, 97, 108, 115, 101]) (fun _ _ => rfl) n tail, .boolean false⟩
  | numberInteger i =>
    rintro _ ⟨⟩
    obtain ⟨hlow, hhigh⟩ : -2 ^ 63 ≤ i ∧ i < 2 ^ 64 := hheld.here
    rw [dumpInteger_eq hlow hhigh]
    exact ⟨.number (Decimal.encode i), reads_isNumber (isNumber_encode i),
      .integer (integerOf_encode i)⟩
  | numberFloat x =>
    rintro _ ⟨⟩
    have hx : isfinite x = true := by
      cases hfinite with
      | numberFloat h => exact decide_eq_true h
    rw [dumpFloat, if_pos hx]
    obtain ⟨hnumber, hread⟩ := hfloat.here x rfl hx
    exact ⟨.number (toChars x), reads_isNumber hnumber, .float hread⟩
  | string s =>
    intro t ht
    obtain ⟨escaped, hescaped, rfl⟩ := Option.map_eq_some_iff.mp ht
    obtain ⟨hvalid, rfl⟩ := dumpEscaped_eq_some_iff.mp hescaped
    refine ⟨.string s, .of_value ⟨rfl, by decide⟩ fun n tail _ _ => ?_, .string s⟩
    have hsplit : 34 :: (s.flatMap escapeByte ++ [34]) ++ tail =
        34 :: (s.flatMap escapeByte ++ 34 :: tail) := by
      simp only [List.append_assoc, List.cons_append, List.nil_append]
    change JsonText.value (n + 1) (34 :: (s.flatMap escapeByte ++ [34]) ++ tail) = _
    rw [hsplit, value, skip_cons rfl]
    change (JsonText.string _).map _ = _
    rw [string_escaped hvalid]
    rfl
  | array elements ih =>
    intro t ht
    obtain ⟨inner, hinner, rfl⟩ := Option.map_eq_some_iff.mp ht
    have hspelled : ∀ e ∈ elements, Spelled toChars float e := by
      cases hfinite with
      | array hall =>
        exact fun e he => ih e he ((Json.every_array_iff.mp hfloat).2 e he)
          ((Json.every_array_iff.mp hheld).2 e he) (hall e he)
    by_cases hne : elements = []
    · subst hne
      cases hinner
      exact ⟨.array [], .of_value ⟨rfl, by decide⟩ fun n tail _ _ => rfl, .array .nil⟩
    · obtain ⟨trees, hall, ⟨c, rest, rfl, hspace, hclose⟩, hsequence⟩ :=
        sequence_elements hne hspelled hinner
      have hreads : Reads (91 :: (c :: rest ++ [93])) (.array trees) := by
        refine .of_value ⟨rfl, by decide⟩ fun n tail hn _ => ?_
        simp only [List.length_append, List.length_cons, List.length_nil] at hn
        have hitems := hsequence n n tail (by rw [List.length_cons]; omega)
          (by rw [List.length_cons]; omega)
        have hsplit : 91 :: (c :: rest ++ [93]) ++ tail = 91 :: (c :: rest ++ 93 :: tail) := by
          simp only [List.append_assoc, List.cons_append, List.nil_append]
        rw [hsplit, value, skip_cons rfl]
        change (enclosed _ 93 n (c :: rest ++ 93 :: tail)).map _ = _
        rw [enclosed, List.cons_append, skip_cons hspace]
        simp only [if_neg hclose]
        rw [← List.cons_append, hitems]
        rfl
      exact ⟨.array trees, hreads, .array hall⟩
  | object members ih =>
    intro t ht
    obtain ⟨inner, hinner, rfl⟩ := Option.map_eq_some_iff.mp ht
    have hspelled : ∀ m ∈ members, Spelled toChars float m.2 := by
      cases hfinite with
      | object hall =>
        exact fun m hm => ih m hm ((Json.every_object_iff.mp hfloat).2 m hm)
          ((Json.every_object_iff.mp hheld).2 m hm) (hall m hm)
    by_cases hne : members = []
    · subst hne
      cases hinner
      exact ⟨.object [], .of_value ⟨rfl, by decide⟩ fun n tail _ _ => rfl, .object rfl .nil⟩
    · obtain ⟨trees, hkeys, hall, hhead, hsequence⟩ := sequence_members hne hspelled hinner
      obtain ⟨rest, rfl⟩ : ∃ rest, inner = 34 :: rest := by
        cases inner with
        | nil => cases hhead
        | cons c rest =>
          cases hhead
          exact ⟨rest, rfl⟩
      have hreads : Reads (123 :: (34 :: rest ++ [125])) (.object trees) := by
        refine .of_value ⟨rfl, by decide⟩ fun n tail hn _ => ?_
        simp only [List.length_append, List.length_cons, List.length_nil] at hn
        have hitems := hsequence n n tail (by rw [List.length_cons]; omega)
          (by rw [List.length_cons]; omega)
        have hsplit : 123 :: (34 :: rest ++ [125]) ++ tail =
            123 :: (34 :: rest ++ 125 :: tail) := by
          simp only [List.append_assoc, List.cons_append, List.nil_append]
        rw [hsplit, value, skip_cons rfl]
        change (enclosed _ 125 n (34 :: rest ++ 125 :: tail)).map _ = _
        rw [enclosed, List.cons_append, skip_cons rfl]
        change (sequence _ 125 n (34 :: rest ++ 125 :: tail)).map _ = _
        rw [hitems]
        rfl
      exact ⟨.object trees, hreads, .object hkeys hall⟩

/-- What `dump` prints is a JSON text, and it spells the value. -/
theorem dump_spells {j : Json} (hfloat : FloatsRead toChars float j) (hheld : j.Held)
    (hfinite : j.Finite) {t : Bytes} (ht : dump toChars j = some t) :
    ∃ tree, JsonText.parse t = some tree ∧ Spells float tree j := by
  obtain ⟨tree, hreads, hspells⟩ := spelled hfloat hheld hfinite t ht
  exact ⟨tree, hreads.parse, hspells⟩

end Reading

end ChatRoom.Nlohmann
