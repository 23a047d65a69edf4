import Mathlib.Data.List.TakeWhile
import ChatRoom.Core.Bytes

/-!
# C strings and lines of a text

A C string ends in front of the first NUL. A text is cut after each newline; what follows
the last newline is a line too, unless it is empty. Every text is empty, or one line
without a newline, or a line, a newline and another text, which is the case analysis that
proofs about lines use.
-/

namespace ChatRoom.Core

/-- The string that an array holds: what stands before its first NUL. -/
def cstr (bytes : Bytes) : Bytes := bytes.takeWhile (· ≠ 0)

/-- A text without NULs is a C string as a whole. -/
theorem cstr_of_not_mem {s : Bytes} (h : 0 ∉ s) : cstr s = s := by
  apply List.takeWhile_eq_self_iff.mpr
  intro c hc
  rw [decide_eq_true_eq]
  rintro rfl
  exact h hc

/-- A C string is no longer than its array. -/
theorem length_cstr_le (s : Bytes) : (cstr s).length ≤ s.length :=
  (List.takeWhile_prefix _).length_le

/-- Only a string with a NUL is shortened. -/
theorem not_mem_of_length_cstr {s : Bytes} (h : s.length ≤ (cstr s).length) : 0 ∉ s := by
  have hwhole : cstr s = s :=
    (List.takeWhile_prefix _).eq_of_length (Nat.le_antisymm (length_cstr_le s) h)
  intro hin
  exact absurd (List.takeWhile_eq_self_iff.mp hwhole 0 hin) (by decide)

/-- Put a byte in front of the first line. -/
def addToFirst (c : UInt8) : List Bytes → List Bytes
  | [] => [[c]]
  | l :: ls => (c :: l) :: ls

/-- The lines of a text, without their newlines. -/
def lines : Bytes → List Bytes
  | [] => []
  | c :: rest => if c = 10 then [] :: lines rest else addToFirst c (lines rest)

/-- The first line ends at the first newline. -/
theorem lines_append_newline {l : Bytes} (rest : Bytes) (h : 10 ∉ l) :
    lines (l ++ 10 :: rest) = l :: lines rest := by
  induction l with
  | nil => rw [List.nil_append, lines, if_pos rfl]
  | cons c l ih =>
    rw [List.mem_cons, not_or] at h
    rw [List.cons_append, lines, if_neg (Ne.symm h.1), ih h.2, addToFirst]

/-- A text without newlines is one line. -/
theorem lines_of_not_mem {l : Bytes} (hne : l ≠ []) (h : 10 ∉ l) : lines l = [l] := by
  induction l with
  | nil => exact absurd rfl hne
  | cons c l ih =>
    rw [List.mem_cons, not_or] at h
    rw [lines, if_neg (Ne.symm h.1)]
    cases l with
    | nil => rfl
    | cons d l => rw [ih (List.cons_ne_nil d l) h.2, addToFirst]

/-- A text with a newline starts with a line that ends there. -/
theorem exists_first_line {s : Bytes} (h : 10 ∈ s) :
    ∃ l rest, 10 ∉ l ∧ s = l ++ 10 :: rest := by
  induction s with
  | nil => cases h
  | cons c s ih =>
    by_cases hc : c = 10
    · exact ⟨[], s, List.not_mem_nil, by rw [hc, List.nil_append]⟩
    · have hmem : 10 ∈ s := (List.mem_cons.mp h).resolve_left (Ne.symm hc)
      obtain ⟨l, rest, hl, hs⟩ := ih hmem
      refine ⟨c :: l, rest, ?_, by rw [hs, List.cons_append]⟩
      rw [List.mem_cons, not_or]
      exact ⟨Ne.symm hc, hl⟩

/-- What holds of the empty text, of a line alone, and of a line in front of a text of which
it holds, holds of every text. -/
theorem lines_induction {P : Bytes → Prop} (nil : P [])
    (last : ∀ l, l ≠ [] → 10 ∉ l → P l)
    (line : ∀ l rest, 10 ∉ l → P rest → P (l ++ 10 :: rest)) (s : Bytes) : P s := by
  induction hn : s.length using Nat.strongRecOn generalizing s with
  | ind n ih =>
    by_cases hmem : 10 ∈ s
    · obtain ⟨l, rest, hl, rfl⟩ := exists_first_line hmem
      apply line l rest hl
      refine ih rest.length ?_ rest rfl
      rw [← hn, List.length_append, List.length_cons]
      omega
    · by_cases hnil : s = []
      · exact hnil ▸ nil
      · exact last s hnil hmem

end ChatRoom.Core
