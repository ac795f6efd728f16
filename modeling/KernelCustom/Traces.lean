import Mathlib.Tactic.Common

namespace Traces
set_option autoImplicit true

/-- A run of a labelled step relation, with the events on its way. -/
inductive Run (step : σ → ε → σ → Prop) : σ → List ε → σ → Prop where
  | nil : Run step s [] s
  | cons (h : step s e t) (hrest : Run step t es u) : Run step s (e :: es) u

variable {step : σ → ε → σ → Prop}

theorem Run.append_iff : Run step s (es ++ es') u ↔ ∃ t, Run step s es t ∧ Run step t es' u := by
  induction es generalizing s with
  | nil =>
    constructor
    · exact fun h => ⟨s, .nil, h⟩
    · rintro ⟨t, hs, ht⟩
      cases hs
      exact ht
  | cons e es ih =>
    constructor
    · intro h
      cases h with
      | cons he hrest =>
        obtain ⟨t, hes, ht⟩ := ih.1 hrest
        exact ⟨t, .cons he hes, ht⟩
    · rintro ⟨t, hs, ht⟩
      cases hs with
      | cons he hes => exact .cons he (ih.2 ⟨t, hes, ht⟩)

/-- Every run of some events from a state with `P` ends in one with `Q`. -/
def Leads (step : σ → ε → σ → Prop) (P : σ → Prop) (es : List ε) (Q : σ → Prop) : Prop :=
  ∀ s t, P s → Run step s es t → Q t

theorem Leads.nil (h : ∀ s, P s → Q s) : Leads step P [] Q := by
  intro s t hs hrun
  cases hrun
  exact h s hs

theorem Leads.cons (h : ∀ s t, P s → step s e t → R t) (hrest : Leads step R es Q) :
    Leads step P (e :: es) Q := by
  intro s u hs hrun
  cases hrun with
  | cons he hes => exact hrest _ u (h s _ hs he) hes

theorem Leads.append (h : Leads step P es R) (h' : Leads step R es' Q) :
    Leads step P (es ++ es') Q := by
  intro s u hs hrun
  obtain ⟨t, hes, hes'⟩ := Run.append_iff.1 hrun
  exact h' t u (h s t hs hes) hes'

theorem Leads.weaken (h : Leads step P es Q) (hP : ∀ s, P' s → P s) (hQ : ∀ s, Q s → Q' s) :
    Leads step P' es Q' :=
  fun s t hs hrun => hQ t (h s t (hP s hs) hrun)

end Traces
