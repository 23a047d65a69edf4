import ChatRoom.Nlohmann.ParserLoop

/-!
# Printing and parsing

What `dump` prints is parsed back to the same value, and everything that `parse` accepts can be
printed and is read back.
-/

namespace ChatRoom.Nlohmann

open ChatRoom.Core Chat JsonText

variable {strtod : Bytes → BitVec 64} {toChars : BitVec 64 → Bytes}

/-! ## Texts of the grammar -/

/-- A text that begins with another byte has no byte order mark. -/
theorem skipBom_of_ne {c : UInt8} (h : c ≠ 0xEF) (bs : Bytes) :
    skipBom (c :: bs) = some (c :: bs) := by
  rw [skipBom.eq_def]
  exact if_neg h

/-- No text of a value begins with a byte order mark. -/
theorem skipBom_of_parse {t : Bytes} {tree : Tree} (h : JsonText.parse t = some tree) :
    skipBom t = some t := by
  cases t with
  | nil => rfl
  | cons c bs =>
    refine skipBom_of_ne ?_ bs
    rintro rfl
    obtain ⟨n, rest, hvalue, _⟩ := parse_eq_some_iff.mp h
    cases n with
    | zero => cases hvalue
    | succ n =>
      have hskip : skip (0xEF :: bs) = 0xEF :: bs := rfl
      rw [value_of_scalar hskip (by decide) (by decide)] at hvalue
      cases hvalue

private theorem takeWhile_nonzero {t : Bytes} (h : 0 ∉ t) : t.takeWhile (· ≠ 0) = t := by
  refine List.takeWhile_eq_self_iff.mpr fun c hc => decide_eq_true ?_
  rintro rfl
  exact h hc

/-- A text of the grammar is parsed to the value of its tree. -/
theorem parse_text {t : Bytes} {tree : Tree} (h : JsonText.parse t = some tree) :
    parse strtod t = ofTree strtod tree := by
  rw [parse_eq, skipBom_of_parse h, Option.bind_some, takeWhile_nonzero (zero_notMem_parse h), h,
    Option.bind_some]

/-! ## The members of an object -/

private theorem mem_putMember {members : SortedMap Bytes Json} {m e : Bytes × Json}
    (h : e ∈ (putMember members m).entries) : e = m ∨ e ∈ members.entries := by
  obtain ⟨e', he', rfl⟩ := List.mem_map.mp h
  rw [SortedMap.assignEntry]
  split
  · exact Or.inl rfl
  · next hne =>
    rcases SortedMap.mem_insertEntry he' with rfl | he'
    · exact absurd rfl hne
    · exact Or.inr he'

private theorem mem_objectOf {l : List (Bytes × Json)} (members : SortedMap Bytes Json)
    {e : Bytes × Json} (h : e ∈ (l.foldl putMember members).entries) :
    e ∈ l ∨ e ∈ members.entries := by
  induction l generalizing members with
  | nil => exact Or.inr h
  | cons m l ih =>
    rcases ih _ h with h | h
    · exact Or.inl (List.mem_cons_of_mem _ h)
    · rcases mem_putMember h with rfl | h
      · exact Or.inl (List.mem_cons_self ..)
      · exact Or.inr h

/-- A member behind all others is put at the end. -/
theorem entries_putMember {members : SortedMap Bytes Json} {m : Bytes × Json}
    (h : ∀ e ∈ members.entries, e.1 < m.1) :
    (putMember members m).entries = members.entries ++ [m] := by
  have hinsert : (members.insert m.1 Json.null).entries = members.entries ++ [(m.1, Json.null)] :=
    SortedMap.insertEntry_of_lt h
  have hsame : members.entries.map (SortedMap.assignEntry m.1 m.2) = members.entries := by
    rw [List.map_congr_left (g := id), List.map_id]
    intro e he
    refine if_neg fun heq => ?_
    exact irrefl_of (· < ·) m.1 (heq ▸ h e he)
  have hlast : SortedMap.assignEntry m.1 m.2 (m.1, Json.null) = m := if_pos rfl
  change (members.insert m.1 Json.null).entries.map (SortedMap.assignEntry m.1 m.2) = _
  rw [hinsert, List.map_append, hsame, List.map_singleton, hlast]

private theorem entries_objectOf {l : List (Bytes × Json)} (members : SortedMap Bytes Json)
    (h : (members.entries ++ l).Pairwise fun a b => a.1 < b.1) :
    (l.foldl putMember members).entries = members.entries ++ l := by
  induction l generalizing members with
  | nil => exact (List.append_nil _).symm
  | cons m l ih =>
    have hbelow : ∀ e ∈ members.entries, e.1 < m.1 := fun e he =>
      (List.pairwise_append.mp h).2.2 e he m (List.mem_cons_self ..)
    have hput := entries_putMember hbelow
    rw [List.foldl_cons, ih (putMember members m), hput, List.append_assoc]
    · rfl
    · rw [hput, List.append_assoc]
      exact h

/-! ## From the text back to the value -/

private theorem mapM_of_forall₂ {α β : Type} {f : α → Option β} {R : α → β → Prop} {as : List α}
    {bs : List β} (h : List.Forall₂ R as bs) (hf : ∀ b ∈ bs, ∀ a, R a b → f a = some b) :
    as.mapM f = some bs := by
  induction h with
  | nil => rfl
  | cons hab _ ih =>
    rw [mapM_cons_eq, hf _ (List.mem_cons_self ..) _ hab,
      ih fun b hb => hf b (List.mem_cons_of_mem _ hb)]
    rfl

private theorem mapM_convertMember {f : Tree → Option Json} {R : Tree → Json → Prop} :
    ∀ {trees : List (Bytes × Tree)} {members : List (Bytes × Json)},
      trees.map Prod.fst = members.map Prod.fst →
      List.Forall₂ R (trees.map Prod.snd) (members.map Prod.snd) →
      (∀ m ∈ members, ∀ tree, R tree m.2 → f tree = some m.2) →
      trees.mapM (convertMember f) = some members
  | [], [], _, _, _ => rfl
  | tree :: trees, m :: members, hkeys, hall, hf => by
    rw [List.map_cons, List.map_cons] at hkeys hall
    obtain ⟨hkey, hkeys⟩ := List.cons.inj hkeys
    obtain ⟨hfirst, hrest⟩ := List.forall₂_cons.mp hall
    rw [mapM_cons_eq, convertMember, hf m (List.mem_cons_self ..) _ hfirst, hkey,
      mapM_convertMember hkeys hrest fun m hm => hf m (List.mem_cons_of_mem _ hm)]
    rfl

/-- A text that spells a value that the library can hold is read as this value. -/
theorem ofTree_of_spells {j : Json} (hheld : j.Held) {tree : Tree}
    (h : Spells (floatOf strtod) tree j) : ofTree strtod tree = some j := by
  induction j using Json.induction generalizing tree with
  | null =>
    cases h
    rfl
  | boolean b =>
    cases h
    rfl
  | numberInteger n =>
    cases h with
    | integer hn =>
      have hrange : -2 ^ 63 ≤ n ∧ n < 2 ^ 64 := hheld.here
      rw [ofTree, numberOf, hn]
      exact if_pos hrange
  | numberFloat x =>
    cases h with
    | @float lexeme _ hx =>
      rw [floatOf] at hx
      split at hx
      · cases hx
      · next hnone =>
        rw [ofTree, numberOf, Option.not_isSome_iff_eq_none.mp hnone, hx]
        rfl
  | string s =>
    cases h
    rfl
  | array elements ih =>
    cases h with
    | array hall =>
      rw [ofTree, ofElements_eq, mapM_of_forall₂ hall fun j hj tree htree =>
        ih j hj ((Json.every_array_iff.mp hheld).2 j hj) htree]
      rfl
  | object members ih =>
    cases h with
    | object hkeys hall =>
      rw [ofTree, ofMembers_eq, mapM_convertMember hkeys hall fun m hm tree htree =>
        ih m hm ((Json.every_object_iff.mp hheld).2 m hm) htree]
      have hsorted : members.Pairwise fun a b => a.1 < b.1 := hheld.here
      rw [Option.map_some, objectOf, entries_objectOf SortedMap.empty hsorted]
      rfl

/-- The numbers in the value are printed as the library reads them. -/
def FloatsPrinted (toChars : BitVec 64 → Bytes) (strtod : Bytes → BitVec 64) : Json → Prop :=
  Json.Every fun j => ∀ x, j = .numberFloat x → isfinite x = true → FloatText toChars strtod x

/-- What `dump` prints is parsed to the value that it printed. -/
theorem parse_dump {j : Json} (hfloat : FloatsPrinted toChars strtod j) (hheld : j.Held)
    (hfinite : j.Finite) {t : Bytes} (ht : dump toChars j = some t) :
    parse strtod t = some j := by
  have hread : FloatsRead toChars (floatOf strtod) j := by
    refine hfloat.mono fun j h x hj hx => ?_
    have htext := h x hj hx
    exact ⟨htext.number, htext.floatOf_eq hx⟩
  obtain ⟨tree, hparse, hspells⟩ := dump_spells hread hheld hfinite ht
  rw [parse_text hparse, ofTree_of_spells hheld hspells]

/-! ## What is parsed can be printed -/

/-- What the library makes sure of at a value that it has read from a text of this length. -/
def SoundHere (length : Nat) : Json → Prop
  | .numberInteger n => -2 ^ 63 ≤ n ∧ n < 2 ^ 64
  | .numberFloat x => isfinite x = true
  | .string s => s.toByteArray.IsValidUTF8 ∧ s.length ≤ length
  | .object members => (members.Pairwise fun a b => a.1 < b.1) ∧
      ∀ m ∈ members, m.1.toByteArray.IsValidUTF8 ∧ m.1.length ≤ length
  | _ => True

/-- What the library makes sure of, at every depth. -/
def Sound (length : Nat) : Json → Prop := Json.Every (SoundHere length)

/-- What a token says of the value that is made of it. -/
theorem sound_scanToken (strtod : Bytes → BitVec 64) {c : UInt8} {rest : Bytes} {k : Nat}
    (hk : rest.length ≤ k) :
    ∀ j, tokenValue (scanToken strtod c rest).1 = some j → Sound k j := by
  have hvalue : ∀ {t : Token} {j : Json}, tokenValue t = some j → Sound k j →
      ∀ j', tokenValue t = some j' → Sound k j' := by
    intro t j ht hj j' ht'
    cases ht.symm.trans ht'
    exact hj
  have hnone : ∀ {t : Token}, tokenValue t = none → ∀ j, tokenValue t = some j → Sound k j := by
    intro t ht j hj
    cases ht.symm.trans hj
  refine scanToken_forall (P := fun t => ∀ j, tokenValue t = some j → Sound k j)
    (fun e he _ => hnone ?_) ⟨?_, ?_, ?_⟩ (fun s left _ hs => ?_)
    (convert_forall (P := fun t => ∀ j, tokenValue t = some j → Sound k j) (fun n hn => ?_)
      (fun n hn => ?_) fun x => ?_) (fun _ => hnone rfl) (hnone rfl)
  · simp only [structuralTokens, List.mem_cons, List.not_mem_nil, or_false] at he
    rcases he with rfl | rfl | rfl | rfl | rfl | rfl <;> rfl
  · exact hvalue rfl (Json.every_boolean_iff.mpr trivial)
  · exact hvalue rfl (Json.every_boolean_iff.mpr trivial)
  · exact hvalue rfl (Json.every_null_iff.mpr trivial)
  · have hlen := length_of_string hs
    obtain ⟨content, _, _, hvalid⟩ := string_eq_some_iff.mp hs
    exact hvalue rfl (Json.every_string_iff.mpr ⟨hvalid, by omega⟩)
  · exact hvalue rfl (Json.every_numberInteger_iff.mpr ⟨by omega, by omega⟩)
  · exact hvalue rfl (Json.every_numberInteger_iff.mpr ⟨by omega, by omega⟩)
  · by_cases hx : isfinite x = true
    · exact hvalue (if_pos hx) (Json.every_numberFloat_iff.mpr hx)
    · exact hnone (if_neg hx)

private theorem sound_scalarValue {c : UInt8} {bs rest : Bytes} {j : Json} {k : Nat}
    (h : scalarValue strtod c bs = some (j, rest)) (hk : bs.length ≤ k) : Sound k j := by
  obtain ⟨j', hj', heq⟩ := Option.map_eq_some_iff.mp h
  cases heq
  exact sound_scanToken strtod hk j hj'

private theorem sound_objectOf {l : List (Bytes × Json)} {k : Nat}
    (h : ∀ m ∈ l, m.1.toByteArray.IsValidUTF8 ∧ m.1.length ≤ k ∧ Sound k m.2) :
    Sound k (objectOf l) := by
  have hmem : ∀ m ∈ (l.foldl putMember SortedMap.empty).entries, m ∈ l := fun m hm =>
    (mem_objectOf SortedMap.empty hm).resolve_right List.not_mem_nil
  refine Json.every_object_iff.mpr ⟨⟨SortedMap.sorted _, fun m hm => ?_⟩, fun m hm => ?_⟩
  · exact ⟨(h m (hmem m hm)).1, (h m (hmem m hm)).2.1⟩
  · exact (h m (hmem m hm)).2.2

private theorem sound_descend (strtod : Bytes → BitVec 64) (k n : Nat) :
    ∀ bs j rest, bs.length ≤ k → descend strtod n bs = some (j, rest) → Sound k j := by
  induction n with
  | zero =>
    intro bs j rest _ h
    cases h
  | succ n ih =>
    intro bs j rest hk h
    cases hskip : skip bs with
    | nil =>
      rw [descend_blank _ bs hskip] at h
      cases h
    | cons c later =>
      have hlater : later.length ≤ k :=
        Nat.le_of_lt (Nat.lt_of_lt_of_le (length_of_skip hskip) hk)
      by_cases hbrace : c = 123
      · subst hbrace
        rw [descend_of_brace hskip] at h
        obtain ⟨r, hr, heq⟩ := Option.map_eq_some_iff.mp h
        cases heq
        exact sound_objectOf (enclosed_forall (member_consumes (descend_consumes strtod n))
          (fun bs m rest hbs hm => member_forall ih hbs hm) hlater hr)
      by_cases hbracket : c = 91
      · subst hbracket
        rw [descend_of_bracket hskip] at h
        obtain ⟨r, hr, heq⟩ := Option.map_eq_some_iff.mp h
        cases heq
        exact Json.every_array_iff.mpr
          ⟨trivial, enclosed_forall (descend_consumes strtod n) ih hlater hr⟩
      · rw [descend_of_scalar hskip hbrace hbracket] at h
        exact sound_scalarValue h hlater

private theorem length_skipBom {t bs : Bytes} (h : skipBom t = some bs) : bs.length ≤ t.length := by
  rw [skipBom.eq_def] at h
  split at h
  · split at h
    · split at h
      · split at h
        · cases h
          simp only [List.length_cons]
          omega
        · cases h
      · cases h
    · cases h
      exact Nat.le_refl _
  · cases h
    exact Nat.le_refl _

/-- Every value that is parsed holds integers of 64 bits, finite numbers and strings in UTF-8 that
are no longer than the text, and its objects are sorted. -/
theorem sound_parse {t : Bytes} {j : Json} (h : parse strtod t = some j) : Sound t.length j := by
  rw [parse_descend] at h
  obtain ⟨bs, hbom, h⟩ := Option.bind_eq_some_iff.mp h
  obtain ⟨⟨j', rest⟩, hdescend, h⟩ := Option.bind_eq_some_iff.mp h
  split at h
  · cases h
    exact sound_descend strtod t.length _ _ _ _ (length_skipBom hbom) hdescend
  · cases h

variable {j : Json} {k : Nat}

/-- A sound value can be held by the library. -/
theorem Sound.held (h : Sound k j) : j.Held := by
  refine h.mono fun j hj => ?_
  cases j with
  | numberInteger n => exact hj
  | object members => exact hj.1
  | _ => exact trivial

/-- A sound value has its strings in UTF-8. -/
theorem Sound.utf8 (h : Sound k j) : j.Utf8 := by
  refine h.mono fun j hj => ?_
  cases j with
  | string s => exact hj.1
  | object members => exact fun m hm => (hj.2 m hm).1
  | _ => exact trivial

/-- A sound value has finite numbers. -/
theorem Sound.finite (h : Sound k j) : j.Finite := by
  induction j using Json.induction with
  | null => exact .null
  | boolean b => exact .boolean b
  | numberInteger n => exact .numberInteger n
  | numberFloat x =>
    have hx : isfinite x = true := h.here
    exact .numberFloat (of_decide_eq_true hx)
  | string s => exact .string s
  | array elements ih => exact .array fun e he => ih e he ((Json.every_array_iff.mp h).2 e he)
  | object members ih => exact .object fun m hm => ih m hm ((Json.every_object_iff.mp h).2 m hm)

/-- `parse` accepts the texts of the grammar and no others: behind a byte order mark, if there is
one, the text up to a zero byte is that of a tree, and the value is that of the tree. -/
theorem parse_accepts_iff (strtod : Bytes → BitVec 64) (t : Bytes) (j : Json) :
    parse strtod t = some j ↔ ∃ bs tree, skipBom t = some bs ∧
      JsonText.parse (bs.takeWhile (· ≠ 0)) = some tree ∧ ofTree strtod tree = some j := by
  rw [parse_eq, Option.bind_eq_some_iff]
  constructor
  · rintro ⟨bs, hbom, h⟩
    obtain ⟨tree, hparse, hof⟩ := Option.bind_eq_some_iff.mp h
    exact ⟨bs, tree, hbom, hparse, hof⟩
  · rintro ⟨bs, tree, hbom, hparse, hof⟩
    exact ⟨bs, hbom, Option.bind_eq_some_iff.mpr ⟨tree, hparse, hof⟩⟩

/-- A value that the library holds is printed and read back when its strings are UTF-8. -/
theorem exists_dump_parse (hfloat : FloatsPrinted toChars strtod j) (hheld : j.Held)
    (hfinite : j.Finite) (hutf8 : j.Utf8) :
    ∃ t, dump toChars j = some t ∧ parse strtod t = some j := by
  obtain ⟨t, ht⟩ := Option.isSome_iff_exists.mp ((dump_isSome_iff toChars j).mpr hutf8)
  exact ⟨t, ht, parse_dump hfloat hheld hfinite ht⟩

/-- A value that the library holds is printed exactly when its strings are UTF-8, and exactly then
it is read back. -/
theorem prints_iff_utf8 (hfloat : FloatsPrinted toChars strtod j) (hheld : j.Held)
    (hfinite : j.Finite) :
    ((dump toChars j).isSome = true ↔ j.Utf8) ∧
      ((∃ t, dump toChars j = some t ∧ parse strtod t = some j) ↔ j.Utf8) := by
  refine ⟨dump_isSome_iff toChars j, ?_, exists_dump_parse hfloat hheld hfinite⟩
  rintro ⟨t, ht, _⟩
  exact (dump_isSome_iff toChars j).mp (Option.isSome_iff_exists.mpr ⟨t, ht⟩)

/-- How 1.5 is printed and read. -/
def sampleToChars (x : BitVec 64) : Bytes :=
  if x = 0x3FF8000000000000 then [49, 46, 53] else [48, 46, 48]

/-- How a number is read back. -/
def sampleStrtod (lexeme : Bytes) : BitVec 64 :=
  if lexeme = [49, 46, 53] then 0x3FF8000000000000 else 0

/-- An object with an array, an integer, a float and two texts that need escapes. -/
def sampleValue : Json :=
  .object [([97], .array [.numberFloat 0x3FF8000000000000, .numberInteger (-7)]),
    ([98, 34], .string [195, 169, 10])]

/-- 1.5 is printed as a number and read back. -/
theorem sample_floatText : FloatText sampleToChars sampleStrtod 0x3FF8000000000000 :=
  ⟨by decide, by decide, by decide⟩

private theorem sampleValue_floatsPrinted :
    FloatsPrinted sampleToChars sampleStrtod sampleValue := by
  simp only [FloatsPrinted, sampleValue, Json.every_object_iff, Json.every_array_iff,
    Json.every_numberFloat_iff, Json.every_numberInteger_iff, Json.every_string_iff,
    List.forall_mem_cons, reduceCtorEq, false_implies, implies_true, true_and, and_true,
    List.not_mem_nil]
  rintro x hx _
  cases hx
  exact sample_floatText

private theorem sampleValue_held : sampleValue.Held := by
  have hsorted : ([97] : Bytes) < [98, 34] := by decide
  simp only [Json.Held, sampleValue, Json.every_object_iff, Json.every_array_iff,
    Json.every_numberFloat_iff, Json.every_numberInteger_iff, Json.every_string_iff,
    List.forall_mem_cons, Json.HeldHere, List.pairwise_pair, List.not_mem_nil, false_implies,
    implies_true, true_and, and_true]
  exact ⟨hsorted, by decide⟩

private theorem sampleValue_finite : sampleValue.Finite := by
  refine .object (List.forall_mem_cons.mpr ⟨?_, List.forall_mem_singleton.mpr (.string _)⟩)
  exact .array (List.forall_mem_cons.mpr ⟨.numberFloat (by decide),
    List.forall_mem_singleton.mpr (.numberInteger _)⟩)

/-- The sample value is printed and read back. -/
theorem prints_sampleValue_iff :
    ((dump sampleToChars sampleValue).isSome = true ↔ sampleValue.Utf8) ∧
      ((∃ t, dump sampleToChars sampleValue = some t ∧ parse sampleStrtod t = some sampleValue) ↔
        sampleValue.Utf8) :=
  prints_iff_utf8 sampleValue_floatsPrinted sampleValue_held sampleValue_finite

end ChatRoom.Nlohmann
