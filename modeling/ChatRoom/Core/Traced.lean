import Mathlib.Data.List.Basic

/-!
# Computations that record what they touch

A value together with the accesses made to compute it, in order. `All P` says that
every access satisfies `P`; it passes through sequencing, so a bound on a whole
computation is a bound on each of its parts.
-/

namespace ChatRoom.Core

variable {ε α β : Type}

/-- A result with the list of the accesses that were made for it. -/
structure Traced (ε α : Type) where
  value : α
  accesses : List ε

namespace Traced

/-- No access at all. -/
def pure (a : α) : Traced ε α := ⟨a, []⟩

/-- The accesses of the second computation come after those of the first. -/
def bind (m : Traced ε α) (f : α → Traced ε β) : Traced ε β :=
  ⟨(f m.value).value, m.accesses ++ (f m.value).accesses⟩

/-- The same accesses with another result. -/
def map (f : α → β) (m : Traced ε α) : Traced ε β := ⟨f m.value, m.accesses⟩

/-- Every access satisfies `P`. -/
def All (P : ε → Prop) (m : Traced ε α) : Prop := ∀ a ∈ m.accesses, P a

/-- The value of two computations in a row. -/
@[simp] theorem bind_value (m : Traced ε α) (f : α → Traced ε β) :
    (m.bind f).value = (f m.value).value := rfl

/-- The value of a computation whose result is changed. -/
@[simp] theorem map_value (f : α → β) (m : Traced ε α) : (m.map f).value = f m.value := rfl

/-- A result that is there makes no access. -/
@[simp] theorem all_pure (P : ε → Prop) (a : α) : (pure a : Traced ε α).All P := by
  intro x hx
  cases hx

/-- All accesses of two computations in a row. -/
theorem all_bind {P : ε → Prop} {m : Traced ε α} {f : α → Traced ε β} :
    (m.bind f).All P ↔ m.All P ∧ (f m.value).All P := by
  simp only [All, bind, List.mem_append]
  exact ⟨fun h => ⟨fun a ha => h a (Or.inl ha), fun a ha => h a (Or.inr ha)⟩,
    fun h a ha => ha.elim (h.1 a) (h.2 a)⟩

/-- Changing the result makes no access. -/
theorem all_map {P : ε → Prop} {m : Traced ε α} {f : α → β} : (m.map f).All P ↔ m.All P := Iff.rfl

/-- A computation with one access. -/
theorem all_singleton {P : ε → Prop} {a : α} {x : ε} :
    (⟨a, [x]⟩ : Traced ε α).All P ↔ P x := by
  simp only [All, List.mem_singleton, forall_eq]

end Traced

end ChatRoom.Core
