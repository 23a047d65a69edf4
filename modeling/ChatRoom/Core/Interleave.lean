import Mathlib.Data.List.Basic
import Mathlib.Data.List.Count

/-!
# Merged sequences

Several writers append to one sequence, and the elements carry the writer that
produced them. A merge is correct when each writer's own elements are all there,
once and in that writer's order, whatever the order across writers. The order of two
given elements is the subject of the second half: what insertions keep one of them from
standing in front of the other.
-/

namespace ChatRoom.Core

variable {κ α : Type*} [DecidableEq κ]

/-- Two tagged sequences agree on every writer's own subsequence. -/
def SameByTag (merged produced : List (κ × α)) : Prop :=
  ∀ k, merged.filter (fun x => x.1 = k) = produced.filter (fun x => x.1 = k)

namespace SameByTag

/-- `SameByTag` is reflexive. -/
protected theorem refl (l : List (κ × α)) : SameByTag l l := fun _ => rfl

/-- A new element of one writer may go in front of elements of other writers. -/
theorem insert {sent waiting produced : List (κ × α)} {x : κ × α}
    (h : SameByTag (sent ++ waiting) produced) (hother : ∀ y ∈ waiting, y.1 ≠ x.1) :
    SameByTag (sent ++ [x] ++ waiting) (produced ++ [x]) := by
  intro k
  have hk := h k
  simp only [List.filter_append, List.append_assoc] at hk ⊢
  by_cases hx : x.1 = k
  · have hnone : waiting.filter (fun y => y.1 = k) = [] := by
      rw [List.filter_eq_nil_iff]
      intro y hy
      rw [decide_eq_true_eq, ← hx]
      exact hother y hy
    rw [hnone, List.append_nil] at hk ⊢
    rw [hk]
  · have hskip : [x].filter (fun y => y.1 = k) = [] := by
      simp only [List.filter_cons, hx, decide_false, List.filter_nil, Bool.false_eq_true, if_false]
    rw [hskip, List.nil_append, hk, List.append_nil]

/-- A new element may always go to the end. -/
theorem concat {merged produced : List (κ × α)} (x : κ × α) (h : SameByTag merged produced) :
    SameByTag (merged ++ [x]) (produced ++ [x]) := by
  intro k
  rw [List.filter_append, List.filter_append, h k]

/-- Every element is in the merge as often as it was produced. -/
theorem perm [DecidableEq α] {merged produced : List (κ × α)} (h : SameByTag merged produced) :
    merged.Perm produced := by
  rw [List.perm_iff_count]
  intro x
  have hcount : ∀ l : List (κ × α), (l.filter (fun y => y.1 = x.1)).count x = l.count x :=
    fun l => List.count_filter (decide_eq_true rfl)
  rw [← hcount merged, ← hcount produced, h x.1]

end SameByTag

/-! ## Two elements of a sequence -/

section Order

variable {a b m : α} {l l' front back : List α}

/-- Two sequences have `a` and `b` in the same order. -/
def SameOrder (a b : α) (l l' : List α) : Prop :=
  ([a, b].Sublist l ↔ [a, b].Sublist l') ∧ ([b, a].Sublist l ↔ [b, a].Sublist l')

/-- Nowhere does `b` stand in front of `a`. -/
def NotAhead (b a : α) (l : List α) : Prop := l.Pairwise fun x y => x = b → y ≠ a

private theorem notAhead_iff : NotAhead b a l ↔ ¬ [b, a].Sublist l := by
  rw [NotAhead, List.pairwise_iff_forall_sublist]
  constructor
  · intro h hsub
    exact h hsub rfl rfl
  · rintro h x y hsub rfl rfl
    exact h hsub

namespace NotAhead

/-- An element does not get ahead when others are left out. -/
theorem sublist (h : NotAhead b a l) (hsub : l'.Sublist l) : NotAhead b a l' :=
  List.Pairwise.sublist hsub h

/-- A new element that is not `a` behind `b`, nor `b` in front of `a`, may go anywhere. -/
theorem insert (h : NotAhead b a (front ++ back)) (hfront : b ∈ front → m ≠ a)
    (hback : m = b → a ∉ back) : NotAhead b a (front ++ [m] ++ back) := by
  obtain ⟨hf, hb, hcross⟩ := List.pairwise_append.mp h
  refine List.pairwise_append.mpr ⟨?_, hb, ?_⟩
  · refine List.pairwise_append.mpr ⟨hf, List.pairwise_singleton _ _, ?_⟩
    rintro x hx y hy rfl
    rw [List.mem_singleton.mp hy]
    exact hfront hx
  · intro x hx y hy
    rcases List.mem_append.mp hx with hx | hx
    · exact hcross x hx y hy
    · rintro rfl rfl
      exact hback (List.mem_singleton.mp hx).symm hy

/-- Of two elements that are there one is in front, so the other one is. -/
theorem ahead (h : NotAhead b a l) (ha : a ∈ l) (hb : b ∈ l) (hne : a ≠ b) :
    [a, b].Sublist l := by
  induction l with
  | nil => cases ha
  | cons x rest ih =>
    obtain ⟨hx, hrest⟩ := List.pairwise_cons.mp h
    rcases List.mem_cons.mp ha with rfl | ha'
    · have hb' : b ∈ rest := (List.mem_cons.mp hb).resolve_left hne.symm
      exact (List.singleton_sublist.mpr hb').cons_cons a
    · rcases List.mem_cons.mp hb with rfl | hb'
      · exact absurd rfl (hx a ha' rfl)
      · exact (ih hrest ha' hb').cons x

/-- Sequences that hold both elements, and both keep `b` behind, agree. -/
theorem sameOrder (h : NotAhead b a l) (h' : NotAhead b a l') (hne : a ≠ b) (ha : a ∈ l)
    (hb : b ∈ l) (ha' : a ∈ l') (hb' : b ∈ l') : SameOrder a b l l' :=
  ⟨iff_of_true (h.ahead ha hb hne) (h'.ahead ha' hb' hne),
    iff_of_false (notAhead_iff.mp h) (notAhead_iff.mp h')⟩

end NotAhead

end Order

end ChatRoom.Core
