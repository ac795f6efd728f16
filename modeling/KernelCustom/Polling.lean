import Mathlib.Tactic.Common

namespace Polling
set_option autoImplicit true

/-- The first of a sequence of polls that meets a condition. -/
structure FirstAt (p : Nat → Prop) (k : Nat) : Prop where
  before : ∀ i, i < k → ¬ p i
  here : p k

theorem FirstAt.unique (h : FirstAt p k) (h' : FirstAt p k') : k = k' := by
  rcases Nat.lt_trichotomy k k' with hlt | heq | hlt
  · exact (h'.before k hlt h.here).elim
  · exact heq
  · exact (h.before k' hlt h'.here).elim

theorem FirstAt.tail (h : FirstAt p (k + 1)) : ¬ p 0 ∧ FirstAt (fun i => p (i + 1)) k :=
  ⟨h.before 0 (Nat.succ_pos k), fun i hi => h.before (i + 1) (Nat.succ_lt_succ hi), h.here⟩

/-- The polls up to a bound meet a condition for the first time somewhere, or never. -/
theorem firstAt_or_never (p : Nat → Prop) (bound : Nat) :
    (∃ k, k ≤ bound ∧ FirstAt p k) ∨ ∀ i, i ≤ bound → ¬ p i := by
  induction bound with
  | zero =>
    by_cases h₀ : p 0
    · exact .inl ⟨0, Nat.le_refl 0, nofun, h₀⟩
    · refine .inr fun i hi => ?_
      rwa [Nat.le_zero.1 hi]
  | succ bound ih =>
    rcases ih with ⟨k, hk, hfirst⟩ | hnever
    · exact .inl ⟨k, Nat.le_succ_of_le hk, hfirst⟩
    · by_cases hlast : p (bound + 1)
      · exact .inl ⟨bound + 1, Nat.le_refl _, fun i hi => hnever i (Nat.lt_succ_iff.1 hi), hlast⟩
      · refine .inr fun i hi => ?_
        rcases Nat.le_succ_iff.1 hi with hle | rfl
        · exact hnever i hle
        · exact hlast

end Polling
