import ChatRoom.Core.JsonParts

/-!
# What composed parsers inherit

Sequences, members and enclosed lists do with the results of their items what the items do: if
one parser of items reads what another one does and converts the results, the lists are read and
converted in the same way. And how far a parser reads does not depend on what follows.
-/

namespace ChatRoom.Core.JsonText

variable {α β : Type} {f : α → Option β} {p : Bytes → Option (α × Bytes)}
  {q : Bytes → Option (β × Bytes)} {close : UInt8}

/-! ## Results that are converted -/

/-- What the first parser reads, the second one reads as well, and converts it. -/
def Maps (f : α → Option β) (p : Bytes → Option (α × Bytes)) (q : Bytes → Option (β × Bytes)) :
    Prop :=
  ∀ bs a rest, p bs = some (a, rest) → q bs = (f a).map fun b => (b, rest)

/-- What the second parser returns is a conversion of what the first one reads, where no number
goes on. -/
def Lifts (f : α → Option β) (p : Bytes → Option (α × Bytes)) (q : Bytes → Option (β × Bytes)) :
    Prop :=
  ∀ bs b rest, q bs = some (b, rest) → Stops rest → ∃ a, p bs = some (a, rest) ∧ f a = some b

/-- The conversion of a member. -/
def convertMember (f : α → Option β) (m : Bytes × α) : Option (Bytes × β) :=
  (f m.2).map fun b => (m.1, b)

/-- A loop over a list, by its first turn. -/
theorem mapM_cons_eq (a : α) (l : List α) :
    (a :: l).mapM f = (f a).bind fun b => (l.mapM f).map fun bs => b :: bs := by
  rw [List.mapM_cons]
  cases f a with
  | none => rfl
  | some b => cases l.mapM f <;> rfl

/-- A number ends where such a character is expected. -/
theorem stops_of_expect {c : UInt8} {bs rest : Bytes} (h : expect c bs = some rest)
    (hc : isNumberByte c = false) : Stops bs := by
  have hskip := expect_eq_some_iff.mp h
  intro d hd
  cases bs with
  | nil => cases hd
  | cons b bs =>
    cases hd
    by_cases hspace : isSpace d = true
    · have hcases : d = 32 ∨ d = 9 ∨ d = 10 ∨ d = 13 := of_decide_eq_true hspace
      rcases hcases with rfl | rfl | rfl | rfl <;> rfl
    · rw [skip, List.dropWhile_cons_of_neg hspace] at hskip
      cases hskip
      exact hc

/-- A list of elements is one element, and then the end or a comma and more. -/
theorem sequence_succ (n : Nat) (bs : Bytes) : sequence p close (n + 1) bs =
    (p bs).bind fun first =>
      match expect close first.2 with
      | some rest => some ([first.1], rest)
      | none => (expect 44 first.2).bind fun rest =>
          (sequence p close n rest).map fun more => (first.1 :: more.1, more.2) := rfl

private theorem sequence_maps (h : Maps f p q) (n : Nat) :
    Maps (List.mapM f) (sequence p close n) (sequence q close n) := by
  induction n with
  | zero =>
    intro bs l rest hl
    cases hl
  | succ n ih =>
    intro bs l rest hl
    obtain ⟨a, left, ha, hcases⟩ := sequence_succ_eq_some_iff.mp hl
    rw [sequence_succ, h bs a left ha]
    rcases hcases with ⟨hclose, rfl⟩ | ⟨hclose, after, more, hcomma, hmore, rfl⟩
    · rw [mapM_cons_eq]
      cases f a with
      | none => rfl
      | some b =>
        simp only [Option.map_some, Option.bind_some, hclose, List.mapM_nil]
        rfl
    · rw [mapM_cons_eq]
      cases f a with
      | none => rfl
      | some b =>
        simp only [Option.map_some, Option.bind_some, hclose, hcomma, ih after more rest hmore,
          Option.map_map]
        rfl

/-- A list is converted element by element. -/
theorem enclosed_maps (h : Maps f p q) (n : Nat) :
    Maps (List.mapM f) (enclosed p close n) (enclosed q close n) := by
  intro bs l rest hl
  rw [enclosed] at hl ⊢
  cases hskip : skip bs with
  | nil =>
    rw [hskip] at hl
    cases hl
  | cons c later =>
    rw [hskip] at hl
    dsimp only at hl ⊢
    split at hl
    · next hc =>
      cases hl
      rw [if_pos hc]
      rfl
    · next hc =>
      rw [if_neg hc]
      exact sequence_maps h n bs l rest hl

/-- A member is converted by its value. -/
theorem member_maps (h : Maps f p q) : Maps (convertMember f) (member p) (member q) := by
  intro bs m left hm
  obtain ⟨after, key, colon, rest, v, hquote, hkey, hcolon, hv, heq⟩ := member_eq_some_iff.mp hm
  cases heq
  rw [member, hquote, Option.bind_some, hkey, Option.bind_some, hcolon, Option.bind_some,
    h rest v.1 v.2 hv, convertMember, Option.map_map, Option.map_map]
  rfl

private theorem sequence_lifts (h : Lifts f p q) (hnumber : isNumberByte close = false) (n : Nat) :
    Lifts (List.mapM f) (sequence p close n) (sequence q close n) := by
  induction n with
  | zero =>
    intro bs l rest hl
    cases hl
  | succ n ih =>
    intro bs l rest hl hstops
    obtain ⟨b, left, hb, hcases⟩ := sequence_succ_eq_some_iff.mp hl
    rcases hcases with ⟨hclose, rfl⟩ | ⟨hclose, after, more, hcomma, hmore, rfl⟩
    · obtain ⟨a, ha, hf⟩ := h bs b left hb (stops_of_expect hclose hnumber)
      refine ⟨[a], sequence_succ_eq_some_iff.mpr ⟨a, left, ha, Or.inl ⟨hclose, rfl⟩⟩, ?_⟩
      rw [mapM_cons_eq, hf]
      rfl
    · obtain ⟨a, ha, hf⟩ := h bs b left hb (stops_of_expect hcomma rfl)
      obtain ⟨as, has, hfs⟩ := ih after more rest hmore hstops
      refine ⟨a :: as, sequence_succ_eq_some_iff.mpr
        ⟨a, left, ha, Or.inr ⟨hclose, after, as, hcomma, has, rfl⟩⟩, ?_⟩
      rw [mapM_cons_eq, hf, hfs]
      rfl

/-- A list that can be converted has been one, element by element. -/
theorem enclosed_lifts (h : Lifts f p q) (hnumber : isNumberByte close = false) (n : Nat) :
    Lifts (List.mapM f) (enclosed p close n) (enclosed q close n) := by
  intro bs l rest hl hstops
  rw [enclosed] at hl
  cases hskip : skip bs with
  | nil =>
    rw [hskip] at hl
    cases hl
  | cons c later =>
    rw [hskip] at hl
    dsimp only at hl
    split at hl
    · next hc =>
      cases hl
      refine ⟨[], ?_, rfl⟩
      rw [enclosed, hskip]
      exact if_pos hc
    · next hc =>
      obtain ⟨as, has, hf⟩ := sequence_lifts h hnumber n bs l rest hl hstops
      refine ⟨as, ?_, hf⟩
      rw [enclosed, hskip]
      dsimp only
      rw [if_neg hc, has]

/-- A member that can be converted has been one. -/
theorem member_lifts (h : Lifts f p q) : Lifts (convertMember f) (member p) (member q) := by
  intro bs m left hm hstops
  obtain ⟨after, key, colon, rest, v, hquote, hkey, hcolon, hv, heq⟩ := member_eq_some_iff.mp hm
  cases heq
  obtain ⟨a, ha, hf⟩ := h rest v.1 v.2 hv hstops
  refine ⟨(key, a), member_eq_some_iff.mpr
    ⟨after, key, colon, rest, (a, v.2), hquote, hkey, hcolon, ha, rfl⟩, ?_⟩
  rw [convertMember, hf]
  rfl

/-! ## Results that have a property -/

private theorem sequence_forall {P : α → Prop} {k : Nat} (hp : Consumes p)
    (h : ∀ bs a rest, bs.length ≤ k → p bs = some (a, rest) → P a) {n : Nat} {bs rest : Bytes}
    {l : List α} (hk : bs.length ≤ k) (hl : sequence p close n bs = some (l, rest)) :
    ∀ a ∈ l, P a := by
  induction n generalizing bs l with
  | zero => cases hl
  | succ n ih =>
    obtain ⟨a, left, ha, ⟨_, rfl⟩ | ⟨_, after, more, hcomma, hmore, rfl⟩⟩ :=
      sequence_succ_eq_some_iff.mp hl
    · exact List.forall_mem_singleton.mpr (h bs a left hk ha)
    · have h₁ := hp _ _ _ ha
      have h₂ := length_of_expect hcomma
      exact List.forall_mem_cons.mpr ⟨h bs a left hk ha, ih (by omega) hmore⟩

/-- What holds of every element that is read holds of the elements of a list. -/
theorem enclosed_forall {P : α → Prop} {k : Nat} (hp : Consumes p)
    (h : ∀ bs a rest, bs.length ≤ k → p bs = some (a, rest) → P a) {n : Nat} {bs rest : Bytes}
    {l : List α} (hk : bs.length ≤ k) (hl : enclosed p close n bs = some (l, rest)) :
    ∀ a ∈ l, P a := by
  rw [enclosed] at hl
  split at hl
  · cases hl
  · split at hl
    · cases hl
      exact List.forall_mem_nil _
    · exact sequence_forall hp h hk hl

/-- A string is no longer than its literal. -/
theorem length_of_string {bs s rest : Bytes} (h : string bs = some (s, rest)) :
    s.length + rest.length < bs.length := by
  obtain ⟨content, hclose, hunescape, _⟩ := string_eq_some_iff.mp h
  have hle := (unescape_length hunescape).1
  rw [(closeQuote_eq hclose).1, List.length_append, List.length_cons]
  omega

/-- What holds of every value that is read holds of that of a member, and its key is UTF-8. -/
theorem member_forall {P : α → Prop} {k : Nat}
    (h : ∀ bs a rest, bs.length ≤ k → p bs = some (a, rest) → P a) {bs rest : Bytes}
    {m : Bytes × α} (hk : bs.length ≤ k) (hm : member p bs = some (m, rest)) :
    m.1.toByteArray.IsValidUTF8 ∧ m.1.length ≤ k ∧ P m.2 := by
  obtain ⟨after, key, colon, left, v, hquote, hkey, hcolon, hv, heq⟩ := member_eq_some_iff.mp hm
  cases heq
  have h₁ := length_of_expect hquote
  have h₂ := length_of_string hkey
  have h₃ := length_of_expect hcolon
  obtain ⟨content, _, _, hvalid⟩ := string_eq_some_iff.mp hkey
  exact ⟨hvalid, by dsimp only; omega, h left v.1 v.2 (by omega) hv⟩

/-! ## How far a parser reads -/

/-- What a parser takes holds no zero byte, and it takes the same before other bytes, as long as
these do not prolong a number. -/
def Local (p : Bytes → Option (α × Bytes)) : Prop :=
  ∀ bs a rest, p bs = some (a, rest) → ∃ used, bs = used ++ rest ∧ 0 ∉ used ∧
    ∀ rest', (Stops rest → Stops rest') → p (used ++ rest') = some (a, rest')

/-- What is skipped is white space, and has no NUL in it. -/
theorem skip_split {bs rest : Bytes} (h : skip bs = rest) : ∃ space, bs = space ++ rest ∧
    0 ∉ space ∧ skip space = [] := by
  refine ⟨bs.takeWhile isSpace, ?_, fun hzero => ?_, ?_⟩
  · rw [← h, skip, List.takeWhile_append_dropWhile]
  · exact absurd (List.mem_takeWhile_imp hzero) (by decide)
  · exact List.dropWhile_eq_nil_iff.mpr fun c hc => List.mem_takeWhile_imp hc

private theorem stops_append_cons {front bs bs' : Bytes} {c : UInt8}
    (h : Stops (front ++ c :: bs)) :
    Stops (front ++ c :: bs') := by
  cases front with
  | nil => exact h
  | cons d front => exact h

private theorem expect_local {c : UInt8} (hc : c ≠ 0) {bs rest : Bytes}
    (h : expect c bs = some rest) :
    ∃ used, bs = used ++ rest ∧ 0 ∉ used ∧ ∀ rest', expect c (used ++ rest') = some rest' ∧
      (Stops (used ++ rest) → Stops (used ++ rest')) := by
  have hskip := expect_eq_some_iff.mp h
  obtain ⟨space, hsplit, hzero, hspace⟩ := skip_split hskip
  have hclose : isSpace c = false := by
    have hhead := List.head?_dropWhile_not isSpace bs
    rw [← skip, hskip] at hhead
    exact hhead
  refine ⟨space ++ [c], by rw [hsplit, List.append_assoc]; rfl, ?_, fun rest' => ?_⟩
  · rw [List.mem_append, List.mem_singleton]
    exact not_or.mpr ⟨hzero, hc.symm⟩
  · rw [List.append_assoc, List.append_assoc, List.singleton_append, List.singleton_append]
    refine ⟨expect_eq_some_iff.mpr ?_, stops_append_cons⟩
    rw [skip_append_of_nil hspace, skip, List.dropWhile_cons_of_neg (ne_true_of_eq_false hclose)]

private theorem ne_zero_of_hexWord {a b c d : UInt8} {code : Nat}
    (h : hexWord a b c d = some code) :
    0 ∉ [a, b, c, d] := by
  have hdigit : ∀ (c : UInt8) (n : Nat), hexDigit c = some n → 0 ≠ c := by
    rintro _ n hn rfl
    cases hn
  rw [hexWord] at h
  split at h
  · next ha hb hc hd =>
    simp [hdigit a _ ha, hdigit b _ hb, hdigit c _ hc, hdigit d _ hd]
  · cases h

/-- A zero byte cannot be escaped and does not stand for itself. -/
theorem zero_notMem_unescape {bs s : Bytes} (h : unescape bs = some s) : 0 ∉ bs := by
  fun_induction unescape bs generalizing s with
  | case1 => exact List.not_mem_nil
  | case5 a b c d high hhigh _ s' e a' b' c' d' rest low hlow hpair ih =>
    obtain ⟨t, ht, rfl⟩ := Option.map_eq_some_iff.mp h
    obtain ⟨rfl, rfl, _⟩ := hpair
    have hfirst := ne_zero_of_hexWord hhigh
    have hsecond := ne_zero_of_hexWord hlow
    have hrest := ih ht
    simp only [List.mem_cons, not_or, List.not_mem_nil, not_false_eq_true] at hfirst hsecond ⊢
    simp [hfirst, hsecond, hrest]
  | case9 a b c d rest code hcode _ _ ih =>
    obtain ⟨t, ht, rfl⟩ := Option.map_eq_some_iff.mp h
    have hfirst := ne_zero_of_hexWord hcode
    have hrest := ih ht
    simp only [List.mem_cons, not_or, List.not_mem_nil, not_false_eq_true] at hfirst ⊢
    simp [hfirst, hrest]
  | case11 e rest _ b hb ih =>
    obtain ⟨t, ht, rfl⟩ := Option.map_eq_some_iff.mp h
    have hrest := ih ht
    have he : 0 ≠ e := by
      rintro rfl
      cases hb
    simp [he, hrest]
  | case14 c rest hslash hcontrol ih =>
    obtain ⟨t, ht, rfl⟩ := Option.map_eq_some_iff.mp h
    have hrest := ih ht
    have hc : 0 ≠ c := by
      rintro rfl
      exact hcontrol (by decide)
    simp [hc, hrest]
  | _ => cases h

private theorem closeQuote_content {bs content rest : Bytes}
    (h : closeQuote bs = some (content, rest))
    (rest' : Bytes) : closeQuote (content ++ 34 :: rest') = some (content, rest') := by
  fun_induction closeQuote bs generalizing content rest with
  | case1 => cases h
  | case2 after =>
    cases h
    exact closeQuote_quote rest'
  | case3 hne => cases h
  | case4 e after hne ih =>
    obtain ⟨r, hr, heq⟩ := Option.map_eq_some_iff.mp h
    cases heq
    rw [List.cons_append, List.cons_append, closeQuote_escape, ih hr]
    rfl
  | case5 c after hquote hslash ih =>
    obtain ⟨r, hr, heq⟩ := Option.map_eq_some_iff.mp h
    cases heq
    rw [List.cons_append, closeQuote_of_ne hquote hslash, ih hr]
    rfl

private theorem string_local : Local string := by
  intro bs s rest h
  obtain ⟨content, hclose, hunescape, hvalid⟩ := string_eq_some_iff.mp h
  refine ⟨content ++ [34], by rw [(closeQuote_eq hclose).1, List.append_assoc]; rfl, ?_,
    fun rest' _ => ?_⟩
  · rw [List.mem_append, List.mem_singleton]
    exact not_or.mpr ⟨zero_notMem_unescape hunescape, by decide⟩
  · rw [List.append_assoc]
    exact string_eq_some_iff.mpr ⟨content, closeQuote_content hclose rest', hunescape, hvalid⟩

private theorem number_local : Local number := by
  intro bs a rest h
  simp only [number] at h
  split at h
  · next hnumber =>
    cases h
    have hall : ∀ c ∈ bs.takeWhile isNumberByte, isNumberByte c = true := fun c hc =>
      List.mem_takeWhile_imp hc
    refine ⟨bs.takeWhile isNumberByte, List.takeWhile_append_dropWhile.symm, fun hzero => ?_,
      fun rest' hstops => ?_⟩
    · exact absurd (hall 0 hzero) (by decide)
    · have hrest : Stops rest' := hstops fun c hc => by
        have hhead := List.head?_dropWhile_not isNumberByte bs
        rw [Option.mem_def.mp hc] at hhead
        exact hhead
      rw [number, List.takeWhile_append_of_pos hall, List.dropWhile_append_of_pos hall,
        takeWhile_of_stops hrest, dropWhile_of_stops hrest, List.append_nil, if_pos hnumber]
  · cases h

private theorem word_local {c : UInt8} {w : Bytes} (hzero : 0 ∉ w) {tree a : Tree} {bs rest : Bytes}
    (h : word (c :: w) tree (c :: bs) = some (a, rest)) : ∃ used, bs = used ++ rest ∧ 0 ∉ used ∧
      ∀ rest', word (c :: w) tree (c :: (used ++ rest')) = some (a, rest') := by
  rw [word] at h
  split at h
  · next hprefix =>
    cases h
    obtain ⟨left, hleft⟩ := List.isPrefixOf_iff_prefix.mp hprefix
    rw [List.cons_append] at hleft
    obtain rfl := List.tail_eq_of_cons_eq hleft
    refine ⟨w, ?_, hzero, fun rest' => ?_⟩
    · rw [← List.cons_append, List.drop_left]
    · rw [word, ← List.cons_append,
        if_pos (List.isPrefixOf_iff_prefix.mpr (List.prefix_append ..)), List.drop_left]
  · cases h

private theorem scalar_local {c : UInt8} {bs rest : Bytes} {a : Tree}
    (h : scalar c bs = some (a, rest)) :
    c ≠ 0 ∧ ∃ used, bs = used ++ rest ∧ 0 ∉ used ∧
      ∀ rest', (Stops rest → Stops rest') → scalar c (used ++ rest') = some (a, rest') := by
  have hnumber : ∀ lexeme left, number (c :: bs) = some (lexeme, left) → isNumberByte c = true := by
    intro lexeme left hn
    by_cases hc : isNumberByte c = true
    · exact hc
    · rw [number, List.takeWhile_cons_of_neg hc] at hn
      cases hn
  rw [scalar] at h
  split_ifs at h with hquote hnull htrue hfalse
  · obtain ⟨r, hr, heq⟩ := Option.map_eq_some_iff.mp h
    cases heq
    obtain ⟨used, hsplit, hzero, hall⟩ := string_local _ _ _ hr
    refine ⟨by rw [hquote]; decide, used, hsplit, hzero, fun rest' hstops => ?_⟩
    rw [scalar, if_pos hquote, hall rest' hstops]
    rfl
  · rw [hnull] at h
    obtain ⟨used, hsplit, hzero, hall⟩ := word_local (by decide) h
    refine ⟨by rw [hnull]; decide, used, hsplit, hzero, fun rest' _ => ?_⟩
    rw [scalar, if_neg hquote, if_pos hnull, hnull, hall]
  · rw [htrue] at h
    obtain ⟨used, hsplit, hzero, hall⟩ := word_local (by decide) h
    refine ⟨by rw [htrue]; decide, used, hsplit, hzero, fun rest' _ => ?_⟩
    rw [scalar, if_neg hquote, if_neg hnull, if_pos htrue, htrue, hall]
  · rw [hfalse] at h
    obtain ⟨used, hsplit, hzero, hall⟩ := word_local (by decide) h
    refine ⟨by rw [hfalse]; decide, used, hsplit, hzero, fun rest' _ => ?_⟩
    rw [scalar, if_neg hquote, if_neg hnull, if_neg htrue, if_pos hfalse, hfalse, hall]
  · obtain ⟨used, hsplit, hzero, hall⟩ := number_local _ _ _ h
    have hlonger := number_consumes _ _ _ h
    cases used with
    | nil =>
      rw [hsplit, List.nil_append] at hlonger
      exact absurd hlonger (Nat.lt_irrefl _)
    | cons d used =>
      obtain ⟨rfl, rfl⟩ := List.cons.inj hsplit
      rw [List.mem_cons, not_or] at hzero
      refine ⟨fun hc => hzero.1 hc.symm, used, rfl, hzero.2, fun rest' hstops => ?_⟩
      rw [scalar, if_neg hquote, if_neg hnull, if_neg htrue, if_neg hfalse, ← List.cons_append,
        hall rest' hstops]

private theorem sequence_local (h : Local p) (hclose : close ≠ 0) (n : Nat) :
    Local (sequence p close n) := by
  induction n with
  | zero =>
    intro bs l rest hl
    cases hl
  | succ n ih =>
    intro bs l rest hl
    obtain ⟨a, left, ha, hcases⟩ := sequence_succ_eq_some_iff.mp hl
    obtain ⟨used, rfl, hzero, hall⟩ := h bs a left ha
    rcases hcases with ⟨hend, rfl⟩ | ⟨hend, after, more, hcomma, hmore, rfl⟩
    · obtain ⟨used', rfl, hzero', hall'⟩ := expect_local hclose hend
      refine ⟨used ++ used', by rw [List.append_assoc], ?_, fun rest' _ => ?_⟩
      · exact fun hmem => (List.mem_append.mp hmem).elim hzero hzero'
      · rw [List.append_assoc]
        exact sequence_succ_eq_some_iff.mpr
          ⟨a, used' ++ rest', hall _ (hall' rest').2, Or.inl ⟨(hall' rest').1, rfl⟩⟩
    · obtain ⟨used', rfl, hzero', hall'⟩ := expect_local (by decide) hcomma
      obtain ⟨used'', rfl, hzero'', hall''⟩ := ih after more rest hmore
      have hne : (44 : UInt8) ≠ close := by
        rintro rfl
        rw [hcomma] at hend
        cases hend
      refine ⟨used ++ (used' ++ used''), by simp only [List.append_assoc], ?_, fun rest' hstops => ?_⟩
      · simp only [List.mem_append, not_or]
        exact ⟨hzero, hzero', hzero''⟩
      · simp only [List.append_assoc]
        have hcomma' := hall' (used'' ++ rest')
        refine sequence_succ_eq_some_iff.mpr ⟨a, used' ++ (used'' ++ rest'), hall _ hcomma'.2,
          Or.inr ⟨expect_eq_none hcomma'.1 hne, used'' ++ rest', more, hcomma'.1,
            hall'' rest' hstops, rfl⟩⟩

/-- A text of spaces holds nothing. -/
def Blank (p : Bytes → Option (α × Bytes)) : Prop := ∀ bs, skip bs = [] → p bs = none

/-- No list of elements is read from white space. -/
theorem sequence_blank (h : Blank p) (close : UInt8) (n : Nat) : Blank (sequence p close n) := by
  intro bs hbs
  cases n with
  | zero => rfl
  | succ n =>
    rw [sequence_succ, h bs hbs]
    rfl

/-- No member is read from white space. -/
theorem member_blank : Blank (member p) := by
  intro bs hbs
  rw [member, expect, hbs]
  rfl

/-- No value is read from white space. -/
theorem value_blank (n : Nat) : Blank (value n) := by
  intro bs hbs
  cases n with
  | zero => rfl
  | succ n => rw [value, hbs]

/-- A list that is closed at once is empty. -/
theorem enclosed_of_close {c : UInt8} {bs later : Bytes} (h : skip bs = c :: later) (n : Nat) :
    enclosed p c n bs = some ([], later) := by
  rw [enclosed, h]
  exact if_pos rfl

/-- A list that is not closed at once has elements. -/
theorem enclosed_of_ne {c : UInt8} {bs later : Bytes} (h : skip bs = c :: later)
    (hc : c ≠ close) (n : Nat) : enclosed p close n bs = sequence p close n bs := by
  rw [enclosed, h]
  exact if_neg hc

private theorem enclosed_local (h : Local p) (hblank : Blank p) (hclose : close ≠ 0) (n : Nat) :
    Local (enclosed p close n) := by
  intro bs l rest hl
  cases hskip : skip bs with
  | nil =>
    rw [enclosed, hskip] at hl
    cases hl
  | cons c later =>
    by_cases hc : c = close
    · subst hc
      rw [enclosed_of_close hskip] at hl
      cases hl
      obtain ⟨used, hsplit, hzero, hall⟩ := expect_local hclose (expect_eq_some_iff.mpr hskip)
      exact ⟨used, hsplit, hzero, fun rest' _ =>
        enclosed_of_close (expect_eq_some_iff.mp (hall rest').1) n⟩
    · rw [enclosed_of_ne hskip hc] at hl
      obtain ⟨used, rfl, hzero, hall⟩ := sequence_local h hclose n bs l rest hl
      refine ⟨used, rfl, hzero, fun rest' hstops => ?_⟩
      cases hused : skip used with
      | nil =>
        have halone := hall [] (by simp [Stops])
        rw [List.append_nil, sequence_blank hblank close n used hused] at halone
        cases halone
      | cons c' later' =>
        have hsame := skip_append hused rest
        rw [hskip] at hsame
        obtain ⟨rfl, _⟩ := List.cons.inj hsame
        rw [enclosed_of_ne (skip_append hused rest') hc, hall rest' hstops]

private theorem member_local (h : Local p) : Local (member p) := by
  intro bs m left hm
  obtain ⟨after, key, colon, rest, v, hquote, hkey, hcolon, hv, heq⟩ := member_eq_some_iff.mp hm
  cases heq
  obtain ⟨used₁, rfl, hzero₁, hall₁⟩ := expect_local (by decide) hquote
  obtain ⟨used₂, rfl, hzero₂, hall₂⟩ := string_local _ _ _ hkey
  obtain ⟨used₃, rfl, hzero₃, hall₃⟩ := expect_local (by decide) hcolon
  obtain ⟨used₄, rfl, hzero₄, hall₄⟩ := h rest v.1 v.2 hv
  refine ⟨used₁ ++ (used₂ ++ (used₃ ++ used₄)), by simp only [List.append_assoc], ?_,
    fun rest' hstops => ?_⟩
  · simp only [List.mem_append, not_or]
    exact ⟨hzero₁, hzero₂, hzero₃, hzero₄⟩
  · simp only [List.append_assoc]
    exact member_eq_some_iff.mpr ⟨_, key, _, _, (v.1, rest'), (hall₁ _).1,
      hall₂ _ (hall₃ _).2, (hall₃ _).1, hall₄ rest' hstops, rfl⟩

/-- A bracket begins an array. -/
theorem value_of_bracket {bs later : Bytes} (h : skip bs = 91 :: later) (n : Nat) :
    value (n + 1) bs = (enclosed (value n) 93 n later).map fun r => (.array r.1, r.2) := by
  rw [value, h]
  rfl

/-- What no bracket and no brace begins is a scalar. -/
theorem value_of_scalar {c : UInt8} {bs later : Bytes} (h : skip bs = c :: later)
    (hbrace : c ≠ 123) (hbracket : c ≠ 91) (n : Nat) : value (n + 1) bs = scalar c later := by
  rw [value, h]
  simp only [if_neg hbrace, if_neg hbracket]

/-- The text of a value ends in itself. -/
theorem value_local (n : Nat) : Local (value n) := by
  induction n with
  | zero =>
    intro bs a rest h
    cases h
  | succ n ih =>
    intro bs a rest h
    cases hskip : skip bs with
    | nil =>
      rw [value_blank _ bs hskip] at h
      cases h
    | cons c later =>
      obtain ⟨space, hsplit, hzero, hspace⟩ := skip_split hskip
      have hc : isSpace c = false := by
        have hhead := List.head?_dropWhile_not isSpace bs
        rw [← skip, hskip] at hhead
        exact hhead
      have hfront : ∀ later', skip (space ++ c :: later') = c :: later' := by
        intro later'
        rw [skip_append_of_nil hspace, skip, List.dropWhile_cons_of_neg (ne_true_of_eq_false hc)]
      have hwhole : ∀ (used : Bytes), later = used ++ rest → 0 ∉ used → c ≠ 0 →
          (∀ rest', (Stops rest → Stops rest') →
            value (n + 1) (space ++ c :: (used ++ rest')) = some (a, rest')) →
          ∃ used, bs = used ++ rest ∧ 0 ∉ used ∧ ∀ rest', (Stops rest → Stops rest') →
            value (n + 1) (used ++ rest') = some (a, rest') := by
        intro used hlater hused hne hall
        refine ⟨space ++ c :: used, by rw [hsplit, hlater, List.append_assoc]; rfl, ?_, ?_⟩
        · simp only [List.mem_append, List.mem_cons, not_or]
          exact ⟨hzero, hne.symm, hused⟩
        · intro rest' hstops
          rw [List.append_assoc]
          exact hall rest' hstops
      by_cases hbrace : c = 123
      · rw [hbrace] at hskip
        rw [value_brace hskip] at h
        obtain ⟨r, hr, heq⟩ := Option.map_eq_some_iff.mp h
        cases heq
        obtain ⟨used, hlater, hused, hall⟩ :=
          enclosed_local (member_local ih) member_blank (by decide) n _ _ _ hr
        refine hwhole used hlater hused (by rw [hbrace]; decide) fun rest' hstops => ?_
        rw [hbrace] at hfront ⊢
        rw [value_brace (hfront _), hall rest' hstops]
        rfl
      by_cases hbracket : c = 91
      · rw [hbracket] at hskip
        rw [value_of_bracket hskip] at h
        obtain ⟨r, hr, heq⟩ := Option.map_eq_some_iff.mp h
        cases heq
        obtain ⟨used, hlater, hused, hall⟩ :=
          enclosed_local ih (value_blank n) (by decide) n _ _ _ hr
        refine hwhole used hlater hused (by rw [hbracket]; decide) fun rest' hstops => ?_
        rw [hbracket] at hfront ⊢
        rw [value_of_bracket (hfront _), hall rest' hstops]
        rfl
      · rw [value_of_scalar hskip hbrace hbracket] at h
        obtain ⟨hne, used, hlater, hused, hall⟩ := scalar_local h
        refine hwhole used hlater hused hne fun rest' hstops => ?_
        rw [value_of_scalar (hfront _) hbrace hbracket, hall rest' hstops]

/-- No text of a value holds a zero byte. -/
theorem zero_notMem_parse {bs : Bytes} {tree : Tree} (h : parse bs = some tree) : 0 ∉ bs := by
  obtain ⟨n, rest, hvalue, hrest⟩ := parse_eq_some_iff.mp h
  obtain ⟨used, rfl, hzero, _⟩ := value_local n bs tree rest hvalue
  intro hmem
  rcases List.mem_append.mp hmem with hmem | hmem
  · exact hzero hmem
  · have hspace := List.dropWhile_eq_nil_iff.mp hrest 0 hmem
    cases hspace

end ChatRoom.Core.JsonText
