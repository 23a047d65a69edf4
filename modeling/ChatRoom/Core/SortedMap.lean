import Mathlib.Order.Defs.Unbundled

/-!
# Maps kept in the order of their keys

An associative container whose entries are visited in increasing order of the keys,
each key once. `insert` keeps the entry of a key that is there, `assign` replaces its
value. Entries inserted in increasing order are listed as they were inserted.
-/

namespace ChatRoom.Core

variable {K V : Type}

/-- Entries in strictly increasing order of their keys. -/
@[ext] structure SortedMap (K V : Type) [LT K] where
  entries : List (K × V)
  sorted : entries.Pairwise fun a b => a.1 < b.1

namespace SortedMap

section Lists

variable [DecidableEq K]

/-- The value of the first entry with the key. -/
def lookup (k : K) : List (K × V) → Option V
  | [] => none
  | e :: rest => if e.1 = k then some e.2 else lookup k rest

/-- Put a value in the place of the one that the key has. -/
def assignEntry (k : K) (v : V) (e : K × V) : K × V := if e.1 = k then (k, v) else e

private theorem fst_assignEntry (k : K) (v : V) (e : K × V) : (assignEntry k v e).1 = e.1 := by
  rw [assignEntry]
  split
  · next h => exact h.symm
  · rfl

private theorem lookup_map_assignEntry (k k' : K) (v : V) (l : List (K × V)) :
    lookup k' (l.map (assignEntry k v)) =
      if k' = k then (lookup k l).map fun _ => v else lookup k' l := by
  induction l with
  | nil => rw [List.map_nil, lookup, lookup, Option.map_none, ite_self]
  | cons e l ih =>
    rw [List.map_cons, lookup, lookup, lookup, ih, fst_assignEntry, assignEntry]
    by_cases hk : k' = k
    · subst hk
      by_cases he : e.1 = k'
      · simp only [if_pos he, if_true, Option.map_some]
      · simp only [if_neg he, if_true]
    · by_cases he : e.1 = k'
      · have hne : e.1 ≠ k := fun h => hk (he.symm.trans h)
        simp only [if_pos he, if_neg hk, if_neg hne]
      · simp only [if_neg he, if_neg hk]

/-- A key that no entry has is not found. -/
theorem lookup_eq_none {k : K} {l : List (K × V)} (h : ∀ e ∈ l, e.1 ≠ k) : lookup k l = none := by
  induction l with
  | nil => rfl
  | cons e l ih =>
    rw [lookup, if_neg (h e List.mem_cons_self)]
    exact ih fun e' he' => h e' (List.mem_cons_of_mem _ he')

/-- No entry has a key that is not found. -/
theorem ne_of_lookup_eq_none {k : K} {l : List (K × V)} (h : lookup k l = none) {e : K × V}
    (he : e ∈ l) : e.1 ≠ k := by
  induction l with
  | nil => cases he
  | cons e' l ih =>
    rw [lookup] at h
    split at h
    · cases h
    · next hne =>
      rcases List.mem_cons.mp he with rfl | he
      · exact hne
      · exact ih h he

/-- What is found is an entry. -/
theorem mem_of_lookup {k : K} {v : V} {l : List (K × V)} (h : lookup k l = some v) :
    (k, v) ∈ l := by
  induction l with
  | nil => cases h
  | cons e l ih =>
    rw [lookup] at h
    split at h
    · next he =>
      cases h
      rw [← he]
      exact List.mem_cons_self
    · exact List.mem_cons_of_mem _ (ih h)

/-- The first list is searched first. -/
theorem lookup_append (k : K) (a b : List (K × V)) :
    lookup k (a ++ b) = (lookup k a).or (lookup k b) := by
  induction a with
  | nil => rw [List.nil_append, lookup, Option.none_or]
  | cons e a ih =>
    rw [List.cons_append, lookup, lookup]
    split
    · rw [Option.some_or]
    · exact ih

private theorem lookup_filter_ne (k k' : K) (l : List (K × V)) :
    lookup k' (l.filter fun e => e.1 ≠ k) = if k' = k then none else lookup k' l := by
  induction l with
  | nil => rw [List.filter_nil, lookup, ite_self]
  | cons e l ih =>
    by_cases he : e.1 = k
    · rw [List.filter_cons_of_neg (by simpa using he), ih, lookup]
      by_cases hk : k' = k
      · rw [if_pos hk, if_pos hk]
      · rw [if_neg hk, if_neg hk, if_neg (fun h => hk (h.symm.trans he))]
    · rw [List.filter_cons_of_pos (by simpa using he), lookup, lookup, ih]
      by_cases hk : k' = k
      · rw [if_neg (fun h => he (h.trans hk)), if_pos hk, if_pos hk]
      · rw [if_neg hk, if_neg hk]

variable [LT K]

section Order

variable [IsStrictTotalOrder K (· < ·)]

/-- A key stands in one entry. -/
theorem length_filter_ne {k : K} {v : V} {l : List (K × V)}
    (hl : l.Pairwise fun a b => a.1 < b.1) (h : lookup k l = some v) :
    (l.filter fun e => e.1 ≠ k).length + 1 = l.length := by
  induction l with
  | nil => cases h
  | cons e l ih =>
    obtain ⟨habove, hrest⟩ := List.pairwise_cons.mp hl
    rw [lookup] at h
    by_cases he : e.1 = k
    · have hother : ∀ e' ∈ l, decide (e'.1 ≠ k) = true := by
        intro e' he'
        rw [decide_eq_true_eq]
        intro heq
        have hlt := habove e' he'
        rw [he, heq] at hlt
        exact irrefl_of (· < ·) k hlt
      rw [List.filter_cons_of_neg (by simpa using he), List.filter_eq_self.mpr hother,
        List.length_cons]
    · rw [if_neg he] at h
      rw [List.filter_cons_of_pos (by simpa using he), List.length_cons, List.length_cons,
        ih hrest h]

private theorem lookup_eq_none_of_lt {k : K} {l : List (K × V)} (h : ∀ e ∈ l, k < e.1) :
    lookup k l = none := by
  apply lookup_eq_none
  intro e he heq
  have hlt := h e he
  rw [heq] at hlt
  exact irrefl_of (· < ·) k hlt

/-- Sorted lists are determined by what is looked up in them. -/
theorem eq_of_lookup {l l' : List (K × V)} (hl : l.Pairwise fun a b => a.1 < b.1)
    (hl' : l'.Pairwise fun a b => a.1 < b.1) (h : ∀ k, lookup k l = lookup k l') : l = l' := by
  induction l generalizing l' with
  | nil =>
    cases l' with
    | nil => rfl
    | cons e' l' =>
      have hfirst := h e'.1
      rw [lookup, lookup, if_pos rfl] at hfirst
      cases hfirst
  | cons e l ih =>
    cases l' with
    | nil =>
      have hfirst := h e.1
      rw [lookup, lookup, if_pos rfl] at hfirst
      cases hfirst
    | cons e' l' =>
      obtain ⟨habove, hrest⟩ := List.pairwise_cons.mp hl
      obtain ⟨habove', hrest'⟩ := List.pairwise_cons.mp hl'
      have hkey : e.1 = e'.1 := by
        have hmem : (e.1, e.2) ∈ e' :: l' := by
          apply mem_of_lookup
          rw [← h, lookup, if_pos rfl]
        have hmem' : (e'.1, e'.2) ∈ e :: l := by
          apply mem_of_lookup
          rw [h, lookup, if_pos rfl]
        rcases List.mem_cons.mp hmem with heq | hin
        · exact congrArg Prod.fst heq
        · rcases List.mem_cons.mp hmem' with heq | hin'
          · exact (congrArg Prod.fst heq).symm
          · exact absurd (habove' _ hin) (asymm_of (· < ·) (habove _ hin'))
      have hvalue : e.2 = e'.2 := by
        have hfirst := h e.1
        rw [lookup, lookup, if_pos rfl, if_pos hkey.symm] at hfirst
        exact Option.some.inj hfirst
      have htail : l = l' := by
        apply ih hrest hrest'
        intro k
        by_cases hk : e.1 = k
        · rw [← hk, lookup_eq_none_of_lt habove, hkey, lookup_eq_none_of_lt habove']
        · have hfirst := h k
          rw [lookup, lookup, if_neg hk, if_neg (hkey ▸ hk)] at hfirst
          exact hfirst
      rw [htail, Prod.ext hkey hvalue]

end Order

variable [DecidableLT K]

/-- Insert into a sorted list, unless the key is there. -/
def insertEntry (k : K) (v : V) : List (K × V) → List (K × V)
  | [] => [(k, v)]
  | e :: rest =>
    if e.1 = k then e :: rest
    else if k < e.1 then (k, v) :: e :: rest
    else e :: insertEntry k v rest

private theorem length_insertEntry_le (k : K) (v : V) (l : List (K × V)) :
    (insertEntry k v l).length ≤ l.length + 1 := by
  fun_induction insertEntry k v l with
  | case1 => exact Nat.le_refl _
  | case2 e rest he => exact Nat.le_succ _
  | case3 e rest he hlt => exact Nat.le_refl _
  | case4 e rest he hlt ih =>
    rw [List.length_cons, List.length_cons]
    exact Nat.succ_le_succ ih

/-- An insertion adds at most the new entry. -/
theorem mem_insertEntry {k : K} {v : V} {l : List (K × V)} {e : K × V}
    (h : e ∈ insertEntry k v l) : e = (k, v) ∨ e ∈ l := by
  fun_induction insertEntry k v l with
  | case1 => exact Or.inl (List.mem_singleton.mp h)
  | case2 e' rest he => exact Or.inr h
  | case3 e' rest he hlt => exact List.mem_cons.mp h
  | case4 e' rest he hlt ih =>
    rcases List.mem_cons.mp h with rfl | h
    · exact Or.inr List.mem_cons_self
    · rcases ih h with rfl | h
      · exact Or.inl rfl
      · exact Or.inr (List.mem_cons_of_mem _ h)

/-- A new key makes the list longer by one. -/
theorem length_insertEntry {k : K} {l : List (K × V)} (v : V) (h : lookup k l = none) :
    (insertEntry k v l).length = l.length + 1 := by
  fun_induction insertEntry k v l with
  | case1 => rfl
  | case2 e rest he =>
    rw [lookup, if_pos he] at h
    cases h
  | case3 e rest he hlt => rfl
  | case4 e rest he hlt ih =>
    rw [lookup, if_neg he] at h
    rw [List.length_cons, List.length_cons, ih h]

variable [IsStrictTotalOrder K (· < ·)]

private theorem insertEntry_sorted (k : K) (v : V) {l : List (K × V)}
    (h : l.Pairwise fun a b => a.1 < b.1) :
    (insertEntry k v l).Pairwise fun a b => a.1 < b.1 := by
  fun_induction insertEntry k v l with
  | case1 => exact List.pairwise_singleton _ _
  | case2 e rest he => exact h
  | case3 e rest he hlt =>
    refine List.pairwise_cons.mpr ⟨?_, h⟩
    intro e' he'
    rcases List.mem_cons.mp he' with rfl | he'
    · exact hlt
    · exact trans_of (· < ·) hlt ((List.pairwise_cons.mp h).1 e' he')
  | case4 e rest he hlt ih =>
    obtain ⟨hfirst, hrest⟩ := List.pairwise_cons.mp h
    refine List.pairwise_cons.mpr ⟨?_, ih hrest⟩
    intro e' he'
    rcases mem_insertEntry he' with rfl | he'
    · exact ((trichotomous_of (· < ·) e.1 k).resolve_right fun h => h.elim he hlt)
    · exact hfirst e' he'

private theorem lookup_insertEntry (k k' : K) (v : V) {l : List (K × V)}
    (h : l.Pairwise fun a b => a.1 < b.1) :
    lookup k' (insertEntry k v l) =
      if k' = k then some ((lookup k l).getD v) else lookup k' l := by
  fun_induction insertEntry k v l with
  | case1 => simp only [lookup, Option.getD_none, eq_comm]
  | case2 e rest he =>
    rw [lookup, lookup]
    by_cases hk : k' = k
    · rw [if_pos hk, if_pos (he.trans hk.symm), if_pos he, Option.getD_some]
    · rw [if_neg hk]
  | case3 e rest he hlt =>
    have hnone : lookup k (e :: rest) = none := by
      apply lookup_eq_none_of_lt
      intro e' he'
      rcases List.mem_cons.mp he' with rfl | he'
      · exact hlt
      · exact trans_of (· < ·) hlt ((List.pairwise_cons.mp h).1 e' he')
    rw [lookup, hnone, Option.getD_none]
    simp only [eq_comm]
  | case4 e rest he hlt ih =>
    rw [lookup, ih (List.pairwise_cons.mp h).2, lookup, lookup, if_neg he]
    by_cases hk : k' = k
    · subst hk
      simp only [if_neg he, if_true]
    · simp only [if_neg hk]

/-- A key above all others goes to the end. -/
theorem insertEntry_of_lt {k : K} {v : V} {l : List (K × V)} (h : ∀ e ∈ l, e.1 < k) :
    insertEntry k v l = l ++ [(k, v)] := by
  induction l with
  | nil => rfl
  | cons e l ih =>
    have hlt := h e List.mem_cons_self
    have hne : e.1 ≠ k := fun heq => irrefl_of (· < ·) k (heq ▸ hlt)
    rw [insertEntry, if_neg hne, if_neg (asymm_of (· < ·) hlt), List.cons_append,
      ih fun e' he' => h e' (List.mem_cons_of_mem _ he')]

end Lists

variable [LT K]

/-- The map without entries. -/
def empty : SortedMap K V := ⟨[], List.Pairwise.nil⟩

variable [DecidableEq K]

/-- The value of a key, if the map has one. -/
def get? (m : SortedMap K V) (k : K) : Option V := lookup k m.entries

/-- Assign to a key that is there; nothing happens to another. -/
def assign (m : SortedMap K V) (k : K) (v : V) : SortedMap K V where
  entries := m.entries.map (assignEntry k v)
  sorted := by
    apply List.pairwise_map.mpr
    apply m.sorted.imp
    intro a b hab
    rw [fst_assignEntry, fst_assignEntry]
    exact hab

/-- An assignment changes the value of its key, if the map has the key. -/
theorem get?_assign (m : SortedMap K V) (k k' : K) (v : V) :
    (m.assign k v).get? k' = if k' = k then (m.get? k).map fun _ => v else m.get? k' :=
  lookup_map_assignEntry k k' v m.entries

/-- Erase the entry of a key. -/
def erase (m : SortedMap K V) (k : K) : SortedMap K V where
  entries := m.entries.filter fun e => e.1 ≠ k
  sorted := m.sorted.filter _

/-- An erased key is not found, all others are as before. -/
theorem get?_erase (m : SortedMap K V) (k k' : K) :
    (m.erase k).get? k' = if k' = k then none else m.get? k' :=
  lookup_filter_ne k k' m.entries

variable [IsStrictTotalOrder K (· < ·)]

/-- Erasing a key of the map takes off one entry. -/
theorem length_erase {m : SortedMap K V} {k : K} {v : V} (h : m.get? k = some v) :
    (m.erase k).entries.length + 1 = m.entries.length :=
  length_filter_ne m.sorted h

/-- Maps with the same values under all keys are the same. -/
theorem ext_get? {m m' : SortedMap K V} (h : ∀ k, m.get? k = m'.get? k) : m = m' :=
  SortedMap.ext (eq_of_lookup m.sorted m'.sorted h)

variable [DecidableLT K]

/-- Insert, unless the key is there. -/
def insert (m : SortedMap K V) (k : K) (v : V) : SortedMap K V where
  entries := insertEntry k v m.entries
  sorted := insertEntry_sorted k v m.sorted

/-- An insertion leaves a key alone that is there, and all others. -/
theorem get?_insert (m : SortedMap K V) (k k' : K) (v : V) :
    (m.insert k v).get? k' = if k' = k then some ((m.get? k).getD v) else m.get? k' :=
  lookup_insertEntry k k' v m.sorted

/-- A new key adds one entry. -/
theorem length_insert {m : SortedMap K V} {k : K} (v : V) (h : m.get? k = none) :
    (m.insert k v).entries.length = m.entries.length + 1 :=
  length_insertEntry v h

private theorem length_insert_le (m : SortedMap K V) (k : K) (v : V) :
    (m.insert k v).entries.length ≤ m.entries.length + 1 :=
  length_insertEntry_le k v m.entries

/-- Insert entries one after another. -/
def insertAll (m : SortedMap K V) (l : List (K × V)) : SortedMap K V :=
  l.foldl (fun m e => m.insert e.1 e.2) m

/-- Every pair adds at most one entry. -/
theorem length_insertAll_le (m : SortedMap K V) (l : List (K × V)) :
    (m.insertAll l).entries.length ≤ m.entries.length + l.length := by
  induction l generalizing m with
  | nil => exact Nat.le_refl _
  | cons e l ih =>
    have hfirst := m.length_insert_le e.1 e.2
    have hrest := ih (m.insert e.1 e.2)
    rw [List.length_cons]
    exact Nat.le_trans hrest (by omega)

/-- The first entry of each key counts, behind those that were there. -/
theorem get?_insertAll (m : SortedMap K V) (l : List (K × V)) (k : K) :
    (m.insertAll l).get? k = (m.get? k).or (lookup k l) := by
  induction l generalizing m with
  | nil => exact (Option.or_none).symm
  | cons e l ih =>
    change ((m.insert e.1 e.2).insertAll l).get? k = _
    rw [ih, get?_insert, lookup]
    by_cases hk : k = e.1
    · subst hk
      rw [if_pos rfl, if_pos rfl, Option.some_or]
      cases m.get? e.1 <;> rfl
    · rw [if_neg hk, if_neg (Ne.symm hk)]

/-- Two lists make the same map exactly when each key has the same first value in them. -/
theorem insertAll_empty_eq_iff {l l' : List (K × V)} :
    (empty : SortedMap K V).insertAll l = empty.insertAll l' ↔ ∀ k, lookup k l = lookup k l' := by
  have hget : ∀ (l : List (K × V)) k, ((empty : SortedMap K V).insertAll l).get? k = lookup k l :=
    fun l k => (get?_insertAll empty l k).trans Option.none_or
  constructor
  · intro h k
    rw [← hget, ← hget, h]
  · intro h
    apply ext_get?
    intro k
    rw [hget, hget, h]

/-- Every entry was there before or is one of the pairs. -/
theorem mem_insertAll {m : SortedMap K V} {l : List (K × V)} {e : K × V}
    (h : e ∈ (m.insertAll l).entries) : e ∈ m.entries ∨ e ∈ l := by
  induction l generalizing m with
  | nil => exact Or.inl h
  | cons e' l ih =>
    rcases ih h with h | h
    · rcases mem_insertEntry h with rfl | h
      · exact Or.inr List.mem_cons_self
      · exact Or.inl h
    · exact Or.inr (List.mem_cons_of_mem _ h)

/-- Entries in increasing order, above all that are there, are listed as they come. -/
theorem entries_insertAll {m : SortedMap K V} {l : List (K × V)}
    (h : (m.entries ++ l).Pairwise fun a b => a.1 < b.1) :
    (m.insertAll l).entries = m.entries ++ l := by
  induction l generalizing m with
  | nil => exact (List.append_nil _).symm
  | cons e l ih =>
    have hbelow : ∀ e' ∈ m.entries, e'.1 < e.1 :=
      fun e' he' => (List.pairwise_append.mp h).2.2 e' he' e List.mem_cons_self
    have hinsert : (m.insert e.1 e.2).entries = m.entries ++ [e] := insertEntry_of_lt hbelow
    have hrest := ih (m := m.insert e.1 e.2) (by
      rw [hinsert, List.append_assoc, List.singleton_append]
      exact h)
    rw [hinsert, List.append_assoc, List.singleton_append] at hrest
    exact hrest

end SortedMap

end ChatRoom.Core
