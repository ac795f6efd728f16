import Mathlib.Tactic.Common

namespace Runs
set_option autoImplicit true

section
variable {σ ι : Type} (step : σ → ι → σ)

/-- A property of every state that a run passes. -/
def Throughout (P : σ → Prop) : σ → List ι → Prop
  | s, [] => P s
  | s, i :: inputs => P s ∧ Throughout P (step s i) inputs

/-- A condition on every input of a run in the state in which it comes. -/
def EachStep (Q : σ → ι → Prop) : σ → List ι → Prop
  | _, [] => True
  | s, i :: inputs => Q s i ∧ EachStep Q (step s i) inputs

/-- An invariant that an input keeps when it meets the condition, and only then the property: the
property holds throughout a run exactly when each input meets the condition. -/
theorem throughout_iff_eachStep {I P : σ → Prop} {Q : σ → ι → Prop} (hP : ∀ s, I s → P s)
    (hstep : ∀ s i, I s → (Q s i → I (step s i)) ∧ (P (step s i) → Q s i)) (h : I s)
    (inputs : List ι) : Throughout step P s inputs ↔ EachStep step Q s inputs := by
  induction inputs generalizing s with
  | nil => exact iff_of_true (hP s h) trivial
  | cons i inputs ih =>
    obtain ⟨hkeeps, honly⟩ := hstep s i h
    constructor
    · rintro ⟨-, hrest⟩
      have hq : Q s i := by
        cases inputs with
        | nil => exact honly hrest
        | cons => exact honly hrest.1
      exact ⟨hq, (ih (hkeeps hq)).1 hrest⟩
    · rintro ⟨hq, hrest⟩
      exact ⟨hP s h, (ih (hkeeps hq)).2 hrest⟩

end

section
variable {σ ι : Type} (step : σ → ι → Option σ)

/-- A condition on every input of a run of partial steps, in the state in which it comes. -/
def EachPartial (Q : σ → ι → Prop) : σ → List ι → Prop
  | _, [] => True
  | s, i :: inputs => Q s i ∧ ∀ s', step s i = some s' → EachPartial Q s' inputs

/-- An invariant under which an input that meets the condition has a step: such a run gets to its
end, and what the invariant says of the inputs holds all along. -/
theorem foldlM_of_eachPartial {I : σ → List ι → Prop} {P Q : σ → ι → Prop}
    (hstep : ∀ s done i, I s done → Q s i →
      P s i ∧ ∃ s', step s i = some s' ∧ I s' (done ++ [i]))
    (h : I s done) (inputs : List ι) (hq : EachPartial step Q s inputs) :
    EachPartial step P s inputs ∧
      ∃ s', inputs.foldlM step s = some s' ∧ I s' (done ++ inputs) := by
  induction inputs generalizing s done with
  | nil =>
    refine ⟨trivial, s, rfl, ?_⟩
    rwa [List.append_nil]
  | cons i inputs ih =>
    obtain ⟨hi, hrest⟩ := hq
    obtain ⟨hp, s₁, hs₁, hinv⟩ := hstep s done i h hi
    obtain ⟨hall, s', hs', hend⟩ := ih hinv (hrest s₁ hs₁)
    refine ⟨⟨hp, fun s₂ hs₂ => ?_⟩, s', ?_, ?_⟩
    · rw [hs₁] at hs₂
      cases hs₂
      exact hall
    · rw [List.foldlM_cons, hs₁]
      exact hs'
    · rwa [List.append_cons]

end

section
variable {σ τ ι ε : Type} {step : σ → ι → Except ε σ} {abstract : τ → ι → τ}

end

end Runs
