import ChatRoom.Core.Bytes

/-!
# UTF-8

Well-formed texts by what the first byte of each character says about the bytes after it, so
that a text can be checked one byte at a time. The check accepts exactly the texts that are
the encodings of some characters one after the other.
-/

namespace ChatRoom.Core.Utf8

/-- The bytes in an interval. -/
def within (r : UInt8 × UInt8) (b : UInt8) : Bool := r.1 ≤ b ∧ b ≤ r.2

/-- The bytes that go on with a character. -/
def tail : UInt8 × UInt8 := (0x80, 0xBF)

/-- What a first byte demands of the bytes after it, if a character starts with it. Overlong
encodings, surrogates and codes beyond the last plane are excluded by the second byte. -/
def trails (b : UInt8) : Option (List (UInt8 × UInt8)) :=
  if b < 0x80 then some []
  else if b < 0xC2 then none
  else if b < 0xE0 then some [tail]
  else if b = 0xE0 then some [(0xA0, 0xBF), tail]
  else if b = 0xED then some [(0x80, 0x9F), tail]
  else if b < 0xF0 then some [tail, tail]
  else if b = 0xF0 then some [(0x90, 0xBF), tail, tail]
  else if b < 0xF4 then some [tail, tail, tail]
  else if b = 0xF4 then some [(0x80, 0x8F), tail, tail]
  else none

/-- What is owed to a character after the next byte, if that may come next. -/
def advance : List (UInt8 × UInt8) → UInt8 → Option (List (UInt8 × UInt8))
  | [], b => trails b
  | r :: owed, b => if within r b then some owed else none

/-- The text is well formed after the bytes that are still owed to a character. -/
def check (owed : List (UInt8 × UInt8)) : Bytes → Bool
  | [] => owed.isEmpty
  | b :: bs =>
    match advance owed b with
    | some owed => check owed bs
    | none => false

/-! ## Characters -/

variable {b : UInt8} {bs : Bytes} {owed : List (UInt8 × UInt8)} {n k l : Nat}

/-- A number of one byte is read back from it. -/
theorem toNat_ofNat (h : n < 256) : (UInt8.ofNat n).toNat = n := by
  rw [UInt8.toNat_ofNat']
  omega

/-- A byte lies between the ends of its interval. -/
theorem within_iff {r : UInt8 × UInt8} : within r b = true ↔ r.1.toNat ≤ b.toNat ∧
    b.toNat ≤ r.2.toNat := by
  rw [within, decide_eq_true_eq, UInt8.le_iff_toNat_le, UInt8.le_iff_toNat_le]

private theorem within_ofNat {lo hi : UInt8} (h : n < 256) :
    within (lo, hi) (UInt8.ofNat n) = true ↔ lo.toNat ≤ n ∧ n ≤ hi.toNat := by
  rw [within_iff, toNat_ofNat h]

private theorem within_tail (h : n < 64) : within tail (UInt8.ofNat (n + 0x80)) = true :=
  (within_ofNat (by omega)).mpr ⟨Nat.le_add_left 128 n, by change n + 128 ≤ 191; omega⟩

/-- A first byte says what follows it. -/
theorem check_nil_cons (h : trails b = some owed) (bs : Bytes) :
    check [] (b :: bs) = check owed bs := by
  rw [check, advance, h]

/-- A later byte in its interval is one less to come. -/
theorem check_cons_cons {r : UInt8 × UInt8} (h : within r b = true) (bs : Bytes) :
    check (r :: owed) (b :: bs) = check owed bs := by
  rw [check, advance, if_pos h]

/-- A later byte outside of its interval is an error. -/
theorem check_of_not_within {r : UInt8 × UInt8} (h : ¬within r b = true) (bs : Bytes) :
    check (r :: owed) (b :: bs) = false := by
  rw [check, advance, if_neg h]

/-- A byte that begins no character is an error. -/
theorem check_of_trails_none (h : trails b = none) (bs : Bytes) : check [] (b :: bs) = false := by
  rw [check, advance, h]

/-- What follows a first byte, by the number of the byte. -/
theorem trails_eq (b : UInt8) : trails b =
    if b.toNat < 0x80 then some []
    else if b.toNat < 0xC2 then none
    else if b.toNat < 0xE0 then some [tail]
    else if b.toNat = 0xE0 then some [(0xA0, 0xBF), tail]
    else if b.toNat = 0xED then some [(0x80, 0x9F), tail]
    else if b.toNat < 0xF0 then some [tail, tail]
    else if b.toNat = 0xF0 then some [(0x90, 0xBF), tail, tail]
    else if b.toNat < 0xF4 then some [tail, tail, tail]
    else if b.toNat = 0xF4 then some [(0x80, 0x8F), tail, tail]
    else none := by
  simp only [trails, UInt8.lt_iff_toNat_lt, ← UInt8.toNat_inj]
  rfl

/-- The first byte of a longer character is no ASCII byte. -/
theorem le_of_trails_cons {r : UInt8 × UInt8} (h : trails b = some (r :: owed)) :
    0x80 ≤ b.toNat := by
  rw [trails_eq] at h
  split_ifs at h with hascii <;> first | exact Nat.le_of_not_lt hascii | cases h

/-- All that may follow a first byte goes on with a character, and never begins one. -/
theorem bounds_of_mem_trails {r : UInt8 × UInt8} (h : trails b = some owed) (hr : r ∈ owed) :
    0x80 ≤ r.1.toNat ∧ r.2.toNat ≤ 0xBF := by
  have hall : ∀ l : List (UInt8 × UInt8),
      l.all (fun r => 0x80 ≤ r.1.toNat ∧ r.2.toNat ≤ 0xBF) = true → r ∈ l →
        0x80 ≤ r.1.toNat ∧ r.2.toNat ≤ 0xBF :=
    fun _ hl hr => of_decide_eq_true (List.all_eq_true.mp hl r hr)
  rw [trails_eq] at h
  split_ifs at h <;> cases h <;> exact hall _ rfl hr

/-- The bytes of a character code, by its size. -/
def encodeNat (v : Nat) : Bytes :=
  if v ≤ 0x7F then [UInt8.ofNat v]
  else if v ≤ 0x7FF then [UInt8.ofNat (v / 64 % 32 + 0xC0), UInt8.ofNat (v % 64 + 0x80)]
  else if v ≤ 0xFFFF then
    [UInt8.ofNat (v / 4096 % 16 + 0xE0), UInt8.ofNat (v / 64 % 64 + 0x80),
      UInt8.ofNat (v % 64 + 0x80)]
  else
    [UInt8.ofNat (v / 262144 % 8 + 0xF0), UInt8.ofNat (v / 4096 % 64 + 0x80),
      UInt8.ofNat (v / 64 % 64 + 0x80), UInt8.ofNat (v % 64 + 0x80)]

private theorem utf8EncodeChar_eq (c : Char) : String.utf8EncodeChar c = encodeNat c.toNat := rfl

/-- The characters are encoded as their codes are. -/
theorem utf8EncodeChar_ofNat (h : n.isValidChar) :
    String.utf8EncodeChar (Char.ofNat n) = encodeNat n := by
  have hchar : Char.ofNat n = Char.ofNatAux n h := dif_pos h
  rw [utf8EncodeChar_eq, hchar]
  rfl

/-- The bytes of a character leave nothing owed. -/
theorem check_encodeNat (h : n.isValidChar) (bs : Bytes) :
    check [] (encodeNat n ++ bs) = check [] bs := by
  have hvalid : n < 0xD800 ∨ 0xDFFF < n ∧ n < 0x110000 := h
  rw [encodeNat]
  split_ifs with hone htwo hthree
  · rw [List.singleton_append, check_nil_cons]
    rw [trails_eq, toNat_ofNat (by omega), if_pos (by omega)]
  · simp only [List.cons_append, List.nil_append]
    have hfirst : trails (UInt8.ofNat (n / 64 % 32 + 0xC0)) = some [tail] := by
      rw [trails_eq, toNat_ofNat (by omega), if_neg (by omega), if_neg (by omega),
        if_pos (by omega)]
    rw [check_nil_cons hfirst, check_cons_cons (within_tail (by omega))]
  · simp only [List.cons_append, List.nil_append]
    have hlast : within tail (UInt8.ofNat (n % 64 + 0x80)) = true := within_tail (by omega)
    by_cases hlow : n < 0x1000
    · have hfirst : trails (UInt8.ofNat (n / 4096 % 16 + 0xE0)) =
          some [(0xA0, 0xBF), tail] := by
        rw [trails_eq, toNat_ofNat (by omega), if_neg (by omega), if_neg (by omega),
          if_neg (by omega), if_pos (by omega)]
      have hsecond : within (0xA0, 0xBF) (UInt8.ofNat (n / 64 % 64 + 0x80)) = true :=
        (within_ofNat (by omega)).mpr ⟨by change 160 ≤ _; omega, by change _ ≤ 191; omega⟩
      rw [check_nil_cons hfirst, check_cons_cons hsecond, check_cons_cons hlast]
    by_cases hsurrogate : 0xD000 ≤ n ∧ n < 0xD800
    · have hfirst : trails (UInt8.ofNat (n / 4096 % 16 + 0xE0)) =
          some [(0x80, 0x9F), tail] := by
        rw [trails_eq, toNat_ofNat (by omega), if_neg (by omega), if_neg (by omega),
          if_neg (by omega), if_neg (by omega), if_pos (by omega)]
      have hsecond : within (0x80, 0x9F) (UInt8.ofNat (n / 64 % 64 + 0x80)) = true :=
        (within_ofNat (by omega)).mpr ⟨by change 128 ≤ _; omega, by change _ ≤ 159; omega⟩
      rw [check_nil_cons hfirst, check_cons_cons hsecond, check_cons_cons hlast]
    · have hfirst : trails (UInt8.ofNat (n / 4096 % 16 + 0xE0)) = some [tail, tail] := by
        rw [trails_eq, toNat_ofNat (by omega), if_neg (by omega), if_neg (by omega),
          if_neg (by omega), if_neg (by omega), if_neg (by omega), if_pos (by omega)]
      rw [check_nil_cons hfirst, check_cons_cons (within_tail (by omega)), check_cons_cons hlast]
  · simp only [List.cons_append, List.nil_append]
    have hthird : within tail (UInt8.ofNat (n / 64 % 64 + 0x80)) = true :=
      within_tail (by omega)
    have hlast : within tail (UInt8.ofNat (n % 64 + 0x80)) = true := within_tail (by omega)
    by_cases hlow : n < 0x40000
    · have hfirst : trails (UInt8.ofNat (n / 262144 % 8 + 0xF0)) =
          some [(0x90, 0xBF), tail, tail] := by
        rw [trails_eq, toNat_ofNat (by omega), if_neg (by omega), if_neg (by omega),
          if_neg (by omega), if_neg (by omega), if_neg (by omega), if_neg (by omega),
          if_pos (by omega)]
      have hsecond : within (0x90, 0xBF) (UInt8.ofNat (n / 4096 % 64 + 0x80)) = true :=
        (within_ofNat (by omega)).mpr ⟨by change 144 ≤ _; omega, by change _ ≤ 191; omega⟩
      rw [check_nil_cons hfirst, check_cons_cons hsecond, check_cons_cons hthird,
        check_cons_cons hlast]
    by_cases hhigh : n < 0x100000
    · have hfirst : trails (UInt8.ofNat (n / 262144 % 8 + 0xF0)) = some [tail, tail, tail] := by
        rw [trails_eq, toNat_ofNat (by omega), if_neg (by omega), if_neg (by omega),
          if_neg (by omega), if_neg (by omega), if_neg (by omega), if_neg (by omega),
          if_neg (by omega), if_pos (by omega)]
      rw [check_nil_cons hfirst, check_cons_cons (within_tail (by omega)),
        check_cons_cons hthird, check_cons_cons hlast]
    · have hfirst : trails (UInt8.ofNat (n / 262144 % 8 + 0xF0)) =
          some [(0x80, 0x8F), tail, tail] := by
        rw [trails_eq, toNat_ofNat (by omega), if_neg (by omega), if_neg (by omega),
          if_neg (by omega), if_neg (by omega), if_neg (by omega), if_neg (by omega),
          if_neg (by omega), if_neg (by omega), if_pos (by omega)]
      have hsecond : within (0x80, 0x8F) (UInt8.ofNat (n / 4096 % 64 + 0x80)) = true :=
        (within_ofNat (by omega)).mpr ⟨by change 128 ≤ _; omega, by change _ ≤ 143; omega⟩
      rw [check_nil_cons hfirst, check_cons_cons hsecond, check_cons_cons hthird,
        check_cons_cons hlast]

private theorem of_check_cons {r : UInt8 × UInt8} (h : check (r :: owed) bs = true) :
    ∃ c rest, bs = c :: rest ∧ r.1.toNat ≤ c.toNat ∧ c.toNat ≤ r.2.toNat ∧
      check owed rest = true := by
  cases bs with
  | nil => cases h
  | cons c rest =>
    rw [check, advance] at h
    by_cases hwithin : within r c = true
    · rw [if_pos hwithin] at h
      obtain ⟨hlo, hhi⟩ := within_iff.mp hwithin
      exact ⟨c, rest, rfl, hlo, hhi, h⟩
    · rw [if_neg hwithin] at h
      cases h

private theorem ofNat_eq_of_toNat {c : UInt8} (h : n = c.toNat) : UInt8.ofNat n = c := by
  rw [h, UInt8.ofNat_toNat]

/-- A character of one byte. -/
theorem exists_one (hb : b.toNat < 0x80) : ∃ n : Nat, n.isValidChar ∧ encodeNat n = [b] := by
  refine ⟨b.toNat, Or.inl (by omega), ?_⟩
  rw [encodeNat, if_pos (by omega), UInt8.ofNat_toNat]

private theorem exists_two {c : UInt8} (hb : 0xC2 ≤ b.toNat) (hb' : b.toNat < 0xE0)
    (hc : 0x80 ≤ c.toNat) (hc' : c.toNat ≤ 0xBF) :
    ∃ n : Nat, n.isValidChar ∧ encodeNat n = [b, c] := by
  refine ⟨(b.toNat - 0xC0) * 64 + (c.toNat - 0x80), Or.inl (by omega), ?_⟩
  rw [encodeNat, if_neg (by omega), if_pos (by omega), ofNat_eq_of_toNat (c := b) (by omega),
    ofNat_eq_of_toNat (c := c) (by omega)]

private theorem exists_three {c d : UInt8} (hb : 0xE0 ≤ b.toNat) (hb' : b.toNat < 0xF0)
    (hc : 0x80 ≤ c.toNat) (hc' : c.toNat ≤ 0xBF) (hd : 0x80 ≤ d.toNat) (hd' : d.toNat ≤ 0xBF)
    (hshort : b.toNat = 0xE0 → 0xA0 ≤ c.toNat) (hsurrogate : b.toNat = 0xED → c.toNat ≤ 0x9F) :
    ∃ n : Nat, n.isValidChar ∧ encodeNat n = [b, c, d] := by
  refine ⟨(b.toNat - 0xE0) * 4096 + (c.toNat - 0x80) * 64 + (d.toNat - 0x80), ?_, ?_⟩
  · change _ < 0xD800 ∨ 0xDFFF < _ ∧ _ < 0x110000
    omega
  · rw [encodeNat, if_neg (by omega), if_neg (by omega), if_pos (by omega),
      ofNat_eq_of_toNat (c := b) (by omega), ofNat_eq_of_toNat (c := c) (by omega),
      ofNat_eq_of_toNat (c := d) (by omega)]

private theorem exists_four {c d e : UInt8} (hb : 0xF0 ≤ b.toNat) (hb' : b.toNat ≤ 0xF4)
    (hc : 0x80 ≤ c.toNat) (hc' : c.toNat ≤ 0xBF) (hd : 0x80 ≤ d.toNat) (hd' : d.toNat ≤ 0xBF)
    (he : 0x80 ≤ e.toNat) (he' : e.toNat ≤ 0xBF)
    (hshort : b.toNat = 0xF0 → 0x90 ≤ c.toNat) (hlast : b.toNat = 0xF4 → c.toNat ≤ 0x8F) :
    ∃ n : Nat, n.isValidChar ∧ encodeNat n = [b, c, d, e] := by
  refine ⟨(b.toNat - 0xF0) * 262144 + (c.toNat - 0x80) * 4096 + (d.toNat - 0x80) * 64 +
    (e.toNat - 0x80), ?_, ?_⟩
  · change _ < 0xD800 ∨ 0xDFFF < _ ∧ _ < 0x110000
    omega
  · rw [encodeNat, if_neg (by omega), if_neg (by omega), if_neg (by omega),
      ofNat_eq_of_toNat (c := b) (by omega), ofNat_eq_of_toNat (c := c) (by omega),
      ofNat_eq_of_toNat (c := d) (by omega), ofNat_eq_of_toNat (c := e) (by omega)]

/-- Three bytes, the second of them in an interval of its own. -/
theorem exists_of_check_three {lo hi : UInt8} (hlo : 0x80 ≤ lo.toNat) (hhi : hi.toNat ≤ 0xBF)
    (hb : 0xE0 ≤ b.toNat) (hb' : b.toNat < 0xF0) (hshort : b.toNat = 0xE0 → 0xA0 ≤ lo.toNat)
    (hsurrogate : b.toNat = 0xED → hi.toNat ≤ 0x9F) (h : check [(lo, hi), tail] bs = true) :
    ∃ n : Nat, n.isValidChar ∧ ∃ rest, b :: bs = encodeNat n ++ rest ∧ check [] rest = true := by
  obtain ⟨c, rest, rfl, hc, hc', hrest⟩ := of_check_cons h
  obtain ⟨d, rest, rfl, hd, hd', hrest⟩ := of_check_cons hrest
  obtain ⟨n, hn, heq⟩ := exists_three hb hb' (Nat.le_trans hlo hc) (Nat.le_trans hc' hhi) hd hd'
    (fun he => Nat.le_trans (hshort he) hc) (fun he => Nat.le_trans hc' (hsurrogate he))
  exact ⟨n, hn, rest, by rw [heq]; rfl, hrest⟩

private theorem exists_of_check_four {lo hi : UInt8} (hlo : 0x80 ≤ lo.toNat) (hhi : hi.toNat ≤ 0xBF)
    (hb : 0xF0 ≤ b.toNat) (hb' : b.toNat ≤ 0xF4) (hshort : b.toNat = 0xF0 → 0x90 ≤ lo.toNat)
    (hlast : b.toNat = 0xF4 → hi.toNat ≤ 0x8F) (h : check [(lo, hi), tail, tail] bs = true) :
    ∃ n : Nat, n.isValidChar ∧ ∃ rest, b :: bs = encodeNat n ++ rest ∧ check [] rest = true := by
  obtain ⟨c, rest, rfl, hc, hc', hrest⟩ := of_check_cons h
  obtain ⟨d, rest, rfl, hd, hd', hrest⟩ := of_check_cons hrest
  obtain ⟨e, rest, rfl, he, he', hrest⟩ := of_check_cons hrest
  obtain ⟨n, hn, heq⟩ := exists_four hb hb' (Nat.le_trans hlo hc) (Nat.le_trans hc' hhi) hd hd' he he'
    (fun h0 => Nat.le_trans (hshort h0) hc) (fun h4 => Nat.le_trans hc' (hlast h4))
  exact ⟨n, hn, rest, by rw [heq]; rfl, hrest⟩

/-- A text that passes the check starts with a character. -/
theorem exists_of_check (h : check [] (b :: bs) = true) :
    ∃ n : Nat, n.isValidChar ∧ ∃ rest, b :: bs = encodeNat n ++ rest ∧
      check [] rest = true := by
  rw [check, advance] at h
  split at h
  · next owed howed =>
    rw [trails_eq] at howed
    split_ifs at howed with h1 h2 h3 h4 h5 h6 h7 h8 h9
    · cases howed
      obtain ⟨n, hn, heq⟩ := exists_one h1
      exact ⟨n, hn, bs, by rw [heq]; rfl, h⟩
    · cases howed
      obtain ⟨c, rest, rfl, hc, hc', hrest⟩ := of_check_cons h
      obtain ⟨n, hn, heq⟩ := exists_two (Nat.le_of_not_lt h2) h3 hc hc'
      exact ⟨n, hn, rest, by rw [heq]; rfl, hrest⟩
    · cases howed
      exact exists_of_check_three (by decide) (by decide) (by omega) (by omega)
        (fun _ => by decide) (fun he => by omega) h
    · cases howed
      exact exists_of_check_three (by decide) (by decide) (by omega) (by omega)
        (fun he => by omega) (fun _ => by decide) h
    · cases howed
      exact exists_of_check_three (by decide) (by decide) (by omega) (by omega)
        (fun he => by omega) (fun he => by omega) h
    · cases howed
      exact exists_of_check_four (by decide) (by decide) (by omega) (by omega)
        (fun _ => by decide) (fun he => by omega) h
    · cases howed
      exact exists_of_check_four (by decide) (by decide) (by omega) (by omega)
        (fun he => by omega) (fun he => by omega) h
    · cases howed
      exact exists_of_check_four (by decide) (by decide) (by omega) (by omega)
        (fun he => by omega) (fun _ => by decide) h
  · cases h

/-! ## Texts -/

private theorem isValidChar_toNat (c : Char) : c.toNat.isValidChar := c.valid

/-- An encoded character is well formed, and the next one begins behind it. -/
theorem check_utf8EncodeChar (c : Char) (bs : Bytes) :
    check [] (String.utf8EncodeChar c ++ bs) = check [] bs := by
  rw [utf8EncodeChar_eq]
  exact check_encodeNat (isValidChar_toNat c) bs

private theorem check_flatMap (cs : List Char) :
    check [] (cs.flatMap String.utf8EncodeChar) = true := by
  induction cs with
  | nil => rfl
  | cons c cs ih => rw [List.flatMap_cons, check_utf8EncodeChar, ih]

/-- Every code has a byte. -/
theorem encodeNat_ne_nil (n : Nat) : encodeNat n ≠ [] := by
  rw [encodeNat]
  split_ifs <;> exact List.cons_ne_nil _ _

/-- A text that passes the check is a text of some characters. -/
theorem exists_chars_of_check (h : check [] bs = true) :
    ∃ cs : List Char, bs = cs.flatMap String.utf8EncodeChar := by
  induction hlen : bs.length using Nat.strongRecOn generalizing bs with
  | ind len ih =>
    cases bs with
    | nil => exact ⟨[], rfl⟩
    | cons b bs =>
      obtain ⟨n, hn, rest, heq, hrest⟩ := exists_of_check h
      have hshort : rest.length < len := by
        have hpos := List.length_pos_of_ne_nil (encodeNat_ne_nil n)
        rw [← hlen, heq, List.length_append]
        omega
      obtain ⟨cs, hcs⟩ := ih rest.length hshort hrest rfl
      refine ⟨Char.ofNat n :: cs, ?_⟩
      rw [heq, List.flatMap_cons, utf8EncodeChar_ofNat hn, ← hcs]

private theorem toByteArray_flatMap (cs : List Char) :
    (cs.flatMap String.utf8EncodeChar).toByteArray = cs.utf8Encode := by
  rw [List.utf8Encode]

/-- The check is the validity of the text. -/
theorem check_iff : check [] bs = true ↔ bs.toByteArray.IsValidUTF8 := by
  constructor
  · intro h
    obtain ⟨cs, rfl⟩ := exists_chars_of_check h
    exact ⟨cs, toByteArray_flatMap cs⟩
  · rintro ⟨cs, hcs⟩
    rw [← toByteArray_flatMap] at hcs
    have hsame := congrArg (fun a => a.data.toList) hcs
    simp only [List.toList_data_toByteArray] at hsame
    rw [hsame]
    exact check_flatMap cs

end ChatRoom.Core.Utf8
