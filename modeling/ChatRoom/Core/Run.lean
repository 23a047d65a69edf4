import Mathlib.Data.List.Basic
import Mathlib.Data.List.Induction

/-!
# Runs of deterministic machines

A machine is a step function; a run feeds it a finite list of inputs. `Visits`
names the state in which each input of a run is taken, so that a property of
every step of a run is a plain universal statement. The rules at the end turn a
one-step fact into a fact about whole runs: an invariant, and a simulation
between two machines that answer each input.
-/

namespace ChatRoom.Core

variable {σ τ ι κ ο : Type*}

/-- Along the run of `inputs` from `s`, the machine takes input `i` in state `t`. -/
def Visits (step : σ → ι → σ) (s : σ) (inputs : List ι) (t : σ) (i : ι) : Prop :=
  ∃ before after, inputs = before ++ i :: after ∧ t = before.foldl step s

/-- A run without inputs visits no step. -/
theorem not_visits_nil (step : σ → ι → σ) (s t : σ) (i : ι) : ¬ Visits step s [] t i := by
  rintro ⟨before, after, h, _⟩
  exact List.append_ne_nil_of_right_ne_nil before (List.cons_ne_nil i after) h.symm

/-- The first input of a run is taken in its first state. -/
theorem visits_cons {step : σ → ι → σ} {s t : σ} {inputs : List ι} {i j : ι} :
    Visits step s (j :: inputs) t i ↔ (i = j ∧ t = s) ∨ Visits step (step s j) inputs t i := by
  constructor
  · rintro ⟨before, after, h, rfl⟩
    cases before with
    | nil =>
      cases h
      exact Or.inl ⟨rfl, rfl⟩
    | cons first before =>
      cases h
      exact Or.inr ⟨before, after, rfl, rfl⟩
  · rintro (⟨rfl, rfl⟩ | ⟨before, after, rfl, rfl⟩)
    · exact ⟨[], inputs, rfl, rfl⟩
    · exact ⟨j :: before, after, rfl, rfl⟩

/-- An element of a list that has been extended by one is an earlier element or the new one. -/
theorem concat_eq_append_cons {l before after : List ι} {i j : ι}
    (h : l ++ [j] = before ++ i :: after) :
    (∃ rest, l = before ++ i :: rest) ∨ (before = l ∧ i = j) := by
  rcases List.eq_nil_or_concat after with rfl | ⟨rest, last, rfl⟩
  · obtain ⟨rfl, hi⟩ := List.append_inj' h rfl
    exact Or.inr ⟨rfl, (List.singleton_inj.mp hi).symm⟩
  · rw [List.concat_eq_append, ← List.cons_append, ← List.append_assoc] at h
    obtain ⟨hin, _⟩ := List.append_inj' h rfl
    exact Or.inl ⟨rest, hin⟩

/-- The last input of a run is taken in the state the earlier inputs lead to. -/
theorem visits_concat {step : σ → ι → σ} {s t : σ} {inputs : List ι} {i j : ι} :
    Visits step s (inputs ++ [j]) t i ↔
      Visits step s inputs t i ∨ (i = j ∧ t = inputs.foldl step s) := by
  constructor
  · rintro ⟨before, after, h, rfl⟩
    rcases concat_eq_append_cons h with ⟨rest, hin⟩ | ⟨rfl, rfl⟩
    · exact Or.inl ⟨before, rest, hin, rfl⟩
    · exact Or.inr ⟨rfl, rfl⟩
  · rintro (⟨before, after, rfl, rfl⟩ | ⟨rfl, rfl⟩)
    · exact ⟨before, after ++ [j], by simp, rfl⟩
    · exact ⟨inputs, [], rfl, rfl⟩

/-- What every step preserves holds at the end of every run. -/
theorem foldl_invariant {step : σ → ι → σ} {P : σ → Prop} {s : σ} (hs : P s)
    (hstep : ∀ t i, P t → P (step t i)) (inputs : List ι) : P (inputs.foldl step s) := by
  induction inputs generalizing s with
  | nil => exact hs
  | cons i rest ih => exact ih (hstep s i hs)

/-- An invariant may be proved knowing which input is taken where. -/
theorem foldl_invariant_of_visits {step : σ → ι → σ} {P : σ → Prop} {s : σ} (hs : P s)
    (inputs : List ι) (hstep : ∀ t i, Visits step s inputs t i → P t → P (step t i)) :
    P (inputs.foldl step s) := by
  induction inputs using List.reverseRecOn with
  | nil => exact hs
  | append_singleton inputs i ih =>
    rw [List.foldl_append, List.foldl_cons, List.foldl_nil]
    refine hstep _ i (visits_concat.mpr (Or.inr ⟨rfl, rfl⟩)) (ih ?_)
    intro t j h
    exact hstep t j (visits_concat.mpr (Or.inl h))

/-- A state visited by a run is itself the end of a run, so it satisfies every invariant. -/
theorem Visits.invariant {step : σ → ι → σ} {P : σ → Prop} {s t : σ} {inputs : List ι} {i : ι}
    (h : Visits step s inputs t i) (hs : P s) (hstep : ∀ t i, P t → P (step t i)) : P t := by
  obtain ⟨before, _, _, rfl⟩ := h
  exact foldl_invariant hs hstep before

/-- The same for an invariant that only some steps keep, in a run that takes no others. -/
theorem Visits.invariant_of_visits {step : σ → ι → σ} {P : σ → Prop} {s t : σ} {inputs : List ι}
    {i : ι} (h : Visits step s inputs t i) (hs : P s)
    (hstep : ∀ u j, Visits step s inputs u j → P u → P (step u j)) : P t := by
  obtain ⟨before, after, hin, rfl⟩ := h
  refine foldl_invariant_of_visits hs before fun u j hu => hstep u j ?_
  obtain ⟨first, rest, hbefore, heq⟩ := hu
  exact ⟨first, rest ++ i :: after, by rw [hin, hbefore, List.append_assoc, List.cons_append], heq⟩

/-- A property that each step keeps exactly when the step is allowed holds at the end of
a run exactly when every step of the run was allowed. -/
theorem foldl_iff_of_visits {step : σ → ι → σ} {P Inv : σ → Prop} {Allowed : σ → ι → Prop} {s : σ}
    (hs : P s) (hinv : Inv s) (hkeep : ∀ t i, Inv t → Inv (step t i))
    (hstep : ∀ t i, Inv t → (P (step t i) ↔ P t ∧ Allowed t i)) (inputs : List ι) :
    P (inputs.foldl step s) ↔ ∀ t i, Visits step s inputs t i → Allowed t i := by
  induction inputs using List.reverseRecOn with
  | nil => exact ⟨fun _ t i h => absurd h (not_visits_nil step s t i), fun _ => hs⟩
  | append_singleton inputs last ih =>
    rw [List.foldl_append, List.foldl_cons, List.foldl_nil,
      hstep _ last (foldl_invariant hinv hkeep inputs), ih]
    constructor
    · rintro ⟨hearlier, hlast⟩ t i h
      rcases visits_concat.mp h with h | ⟨rfl, rfl⟩
      · exact hearlier t i h
      · exact hlast
    · intro h
      exact ⟨fun t i hv => h t i (visits_concat.mpr (Or.inl hv)),
        h _ last (visits_concat.mpr (Or.inr ⟨rfl, rfl⟩))⟩

/-- The same for a run whose inputs are all of one kind. -/
theorem foldl_iff_of_fits {step : σ → ι → σ} {P Inv : σ → Prop} {Allowed : σ → ι → Prop}
    {Fits : ι → Prop} {s : σ} (hs : P s) (hinv : Inv s) (hkeep : ∀ t i, Inv t → Inv (step t i))
    (hstep : ∀ t i, Fits i → Inv t → (P (step t i) ↔ P t ∧ Allowed t i)) {inputs : List ι}
    (hfits : ∀ i ∈ inputs, Fits i) :
    P (inputs.foldl step s) ↔ ∀ t i, Visits step s inputs t i → Allowed t i := by
  induction inputs using List.reverseRecOn with
  | nil => exact ⟨fun _ t i h => absurd h (not_visits_nil step s t i), fun _ => hs⟩
  | append_singleton inputs last ih =>
    have hlast : Fits last := hfits last (List.mem_append_right _ (List.mem_cons_self ..))
    rw [List.foldl_append, List.foldl_cons, List.foldl_nil,
      hstep _ last hlast (foldl_invariant hinv hkeep inputs),
      ih fun i hi => hfits i (List.mem_append_left _ hi)]
    constructor
    · rintro ⟨hearlier, hallowed⟩ t i h
      rcases visits_concat.mp h with h | ⟨rfl, rfl⟩
      · exact hearlier t i h
      · exact hallowed
    · intro h
      exact ⟨fun t i hv => h t i (visits_concat.mpr (Or.inl hv)),
        h _ last (visits_concat.mpr (Or.inr ⟨rfl, rfl⟩))⟩

/-- A property holds in every state of a run exactly when every step of the run was allowed,
if allowed steps keep an invariant that gives the property, and a step that is not allowed
leads out of it. -/
theorem forall_prefix_iff_of_visits {step : σ → ι → σ} {P Inv : σ → Prop}
    {Allowed : σ → ι → Prop} {s : σ} (hs : Inv s) (hinv : ∀ t, Inv t → P t)
    (hkeep : ∀ t i, Inv t → Allowed t i → Inv (step t i))
    (hbreak : ∀ t i, Inv t → P (step t i) → Allowed t i) (inputs : List ι) :
    (∀ before after, inputs = before ++ after → P (before.foldl step s)) ↔
      ∀ t i, Visits step s inputs t i → Allowed t i := by
  constructor
  · intro hall
    induction inputs generalizing s with
    | nil => exact fun t i hv => absurd hv (not_visits_nil step s t i)
    | cons first rest ih =>
      have hfirst : Allowed s first := hbreak s first hs (hall [first] rest rfl)
      intro t i hv
      rcases visits_cons.mp hv with ⟨rfl, rfl⟩ | hv
      · exact hfirst
      · refine ih (hkeep s first hs hfirst) ?_ t i hv
        rintro before after rfl
        exact hall (first :: before) after rfl
  · rintro hallowed before after rfl
    apply hinv
    apply foldl_invariant_of_visits hs before
    rintro t i ⟨earlier, later, rfl, ht⟩ ht'
    apply hkeep t i ht'
    apply hallowed t i
    exact ⟨earlier, later ++ after, by rw [List.append_assoc, List.cons_append], ht⟩

/-- Every element of a history is as `Q` wants it after the elements before it. -/
def Along (Q : List ι → ι → Prop) (history : List ι) : Prop :=
  ∀ before i after, history = before ++ i :: after → Q before i

/-- Every property holds along the empty history. -/
theorem along_nil (Q : List ι → ι → Prop) : Along Q [] := by
  intro before i after h
  exact absurd h.symm (List.append_ne_nil_of_right_ne_nil before (List.cons_ne_nil i after))

/-- A property holds along a history exactly when it holds along all but the last input, and of
that. -/
theorem along_concat {Q : List ι → ι → Prop} {history : List ι} {i : ι} :
    Along Q (history ++ [i]) ↔ Along Q history ∧ Q history i := by
  constructor
  · intro h
    refine ⟨fun before j after heq => h before j (after ++ [i]) ?_, h history i [] rfl⟩
    rw [heq, List.append_assoc, List.cons_append]
  · rintro ⟨hearlier, hlast⟩ before j after heq
    rcases concat_eq_append_cons heq with ⟨rest, hin⟩ | ⟨rfl, rfl⟩
    · exact hearlier before j rest hin
    · exact hlast

/-- Elements that satisfy `Q` after anything may be added at will. -/
theorem along_append_of_forall {Q : List ι → ι → Prop} {history more : List ι}
    (h : ∀ i ∈ more, ∀ before, Q before i) : Along Q (history ++ more) ↔ Along Q history := by
  induction more using List.reverseRecOn with
  | nil => rw [List.append_nil]
  | append_singleton more i ih =>
    rw [← List.append_assoc, along_concat,
      ih fun j hj => h j (List.mem_append_left _ hj)]
    exact and_iff_left (h i (List.mem_append_right _ (List.mem_singleton.mpr rfl)) _)

/-- Run a machine that answers each input, collecting the answers in order. -/
def exec (step : σ → ι → σ × ο) : σ → List ι → σ × List ο
  | s, [] => (s, [])
  | s, i :: rest =>
    let here := step s i
    let later := exec step here.1 rest
    (later.1, here.2 :: later.2)

/-- The inputs another machine is to take along a run: `label` reads off, in the
state of each step, what that machine needs to know of it. -/
def script (step : σ → ι → σ × ο) (label : σ → ι → κ) : σ → List ι → List κ
  | _, [] => []
  | s, i :: rest => label s i :: script step label (step s i).1 rest

/-- Two machines related step by step are related after every run, and have
given the same answers. -/
theorem exec_simulates {step : σ → ι → σ × ο} {step' : τ → κ → τ × ο} {label : σ → ι → κ}
    {R : σ → τ → Prop}
    (hstep : ∀ s t i, R s t → R (step s i).1 (step' t (label s i)).1 ∧
      (step s i).2 = (step' t (label s i)).2)
    (inputs : List ι) {s : σ} {t : τ} (h : R s t) :
    R (exec step s inputs).1 (exec step' t (script step label s inputs)).1 ∧
      (exec step s inputs).2 = (exec step' t (script step label s inputs)).2 := by
  induction inputs generalizing s t with
  | nil => exact ⟨h, rfl⟩
  | cons i rest ih =>
    obtain ⟨hnext, hout⟩ := hstep s t i h
    obtain ⟨hrel, houts⟩ := ih hnext
    exact ⟨hrel, by simp only [exec, script, hout, houts]⟩

end ChatRoom.Core
