import ChatRoom.Core.SortedMap
import ChatRoom.Chat.ReplyForms

/-!
# Values of the JSON library

Which values the library can hold: an integer has 64 bits, with or without a sign, and the
members of an object are kept in the order of their keys. A property of all parts of a value is
stated once, with an induction over the value.
-/

namespace ChatRoom.Chat.Json

open ChatRoom.Core

/-- Induction over a value, its elements and its members. -/
theorem induction {P : Json → Prop} (null : P .null) (boolean : ∀ b, P (.boolean b))
    (numberInteger : ∀ n, P (.numberInteger n)) (numberFloat : ∀ x, P (.numberFloat x))
    (string : ∀ s, P (.string s))
    (array : ∀ elements, (∀ e ∈ elements, P e) → P (.array elements))
    (object : ∀ members, (∀ m ∈ members, P m.2) → P (.object members)) (j : Json) : P j :=
  Json.rec (motive_1 := P) (motive_2 := fun elements => ∀ e ∈ elements, P e)
    (motive_3 := fun members => ∀ m ∈ members, P m.2) (motive_4 := fun m => P m.2)
    null boolean numberInteger numberFloat string array object
    nofun
    (fun _ _ hfirst hrest => List.forall_mem_cons.mpr ⟨hfirst, hrest⟩)
    nofun
    (fun _ _ hfirst hrest => List.forall_mem_cons.mpr ⟨hfirst, hrest⟩)
    (fun _ _ hvalue => hvalue) j

/-- Every part of the value has the property, the value itself included. -/
inductive Every (P : Json → Prop) : Json → Prop where
  | scalar {j : Json} (h : P j) (harray : ∀ elements, j ≠ .array elements)
      (hobject : ∀ members, j ≠ .object members) : Every P j
  | array {elements : List Json} (h : P (.array elements)) (hall : ∀ e ∈ elements, Every P e) :
      Every P (.array elements)
  | object {members : List (Bytes × Json)} (h : P (.object members))
      (hall : ∀ m ∈ members, Every P m.2) : Every P (.object members)

variable {P Q : Json → Prop} {elements : List Json} {members : List (Bytes × Json)} {j : Json}

/-- What holds at every depth holds of the value itself. -/
theorem Every.here (h : Every P j) : P j := by
  cases h with
  | scalar h _ _ => exact h
  | array h _ => exact h
  | object h _ => exact h

/-- `null` has no depth. -/
@[simp]
theorem every_null_iff : Every P .null ↔ P .null :=
  ⟨Every.here, fun h => .scalar h (by simp) (by simp)⟩

/-- A truth value has no depth. -/
@[simp]
theorem every_boolean_iff {b : Bool} : Every P (.boolean b) ↔ P (.boolean b) :=
  ⟨Every.here, fun h => .scalar h (by simp) (by simp)⟩

/-- An integer has no depth. -/
@[simp]
theorem every_numberInteger_iff {n : Int} : Every P (.numberInteger n) ↔ P (.numberInteger n) :=
  ⟨Every.here, fun h => .scalar h (by simp) (by simp)⟩

/-- A float has no depth. -/
@[simp]
theorem every_numberFloat_iff {x : BitVec 64} :
    Every P (.numberFloat x) ↔ P (.numberFloat x) :=
  ⟨Every.here, fun h => .scalar h (by simp) (by simp)⟩

/-- A string has no depth. -/
@[simp]
theorem every_string_iff {s : Bytes} : Every P (.string s) ↔ P (.string s) :=
  ⟨Every.here, fun h => .scalar h (by simp) (by simp)⟩

/-- An array has the depth of its elements. -/
@[simp]
theorem every_array_iff :
    Every P (.array elements) ↔ P (.array elements) ∧ ∀ e ∈ elements, Every P e := by
  constructor
  · intro h
    cases h with
    | scalar _ harray _ => exact absurd rfl (harray _)
    | array h hall => exact ⟨h, hall⟩
  · exact fun h => .array h.1 h.2

/-- An object has the depth of its members. -/
@[simp]
theorem every_object_iff :
    Every P (.object members) ↔ P (.object members) ∧ ∀ m ∈ members, Every P m.2 := by
  constructor
  · intro h
    cases h with
    | scalar _ _ hobject => exact absurd rfl (hobject _)
    | object h hall => exact ⟨h, hall⟩
  · exact fun h => .object h.1 h.2

/-- What follows at one place follows at every depth. -/
theorem Every.mono (hPQ : ∀ j, P j → Q j) (h : Every P j) : Every Q j := by
  induction h with
  | scalar h harray hobject => exact .scalar (hPQ _ h) harray hobject
  | array h _ ih => exact .array (hPQ _ h) ih
  | object h _ ih => exact .object (hPQ _ h) ih

/-- The strings that stand at the value itself are UTF-8. -/
def Utf8Here : Json → Prop
  | .string s => s.toByteArray.IsValidUTF8
  | .object members => ∀ m ∈ members, m.1.toByteArray.IsValidUTF8
  | _ => True

/-- All strings in the value are UTF-8, the keys of its objects included. -/
def Utf8 : Json → Prop := Every Utf8Here

/-- An integer is that of a `std::int64_t` or of a `std::uint64_t`, and the members of an object
are the entries of a `std::map`. -/
def HeldHere : Json → Prop
  | .numberInteger n => -2 ^ 63 ≤ n ∧ n < 2 ^ 64
  | .object members => members.Pairwise fun a b => a.1 < b.1
  | _ => True

/-- The library can hold the value. -/
def Held : Json → Prop := Every HeldHere

end ChatRoom.Chat.Json
