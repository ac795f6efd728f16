import Mathlib.Tactic.Common

namespace LoggedLoop
set_option autoImplicit true

section
variable {α β ι : Type}

/-- The accesses of one round in front of those of the rest of a run. -/
def logged (l : List ι) (r : Option (α × List ι)) : Option (α × List ι) :=
  r.map fun p => (p.1, l ++ p.2)

@[simp] theorem map_fst_logged (l : List ι) (r : Option (α × List ι)) :
    (logged l r).map Prod.fst = r.map Prod.fst := by
  cases r <;> rfl

theorem logged_some (h : logged l r = some p) : ∃ q, r = some q ∧ p = (q.1, l ++ q.2) := by
  obtain ⟨q, hq, hp⟩ := Option.map_eq_some_iff.1 h
  exact ⟨q, hq, hp.symm⟩

/-- A loop with a bound on its rounds comes to the same result with every bound from `b` on, and
that result is as `P` says. -/
def Ends (loop : Nat → Option α) (b : Nat) (P : α → Prop) : Prop :=
  ∃ r, (∀ fuel, b ≤ fuel → loop fuel = some r) ∧ P r

/-- A loop that stops in its first round. -/
theorem Ends.stop {loop : Nat → Option α} (h : ∀ fuel, loop (fuel + 1) = some r) (hP : P r)
    (b : Nat) : Ends loop (b + 1) P := by
  refine ⟨r, fun fuel hf => ?_, hP⟩
  obtain ⟨fuel, rfl⟩ : ∃ n, fuel = n + 1 := ⟨fuel - 1, by omega⟩
  exact h fuel

/-- A loop that goes on after its first round. -/
theorem Ends.round {loop loop' : Nat → Option (α × List ι)} (h : Ends loop b P) (hb : b < c)
    (hround : ∀ fuel, c ≤ fuel + 1 → loop' (fuel + 1) = logged l (loop fuel))
    (hP : ∀ r, P r → Q (r.1, l ++ r.2)) : Ends loop' c Q := by
  obtain ⟨r, hr, hp⟩ := h
  refine ⟨(r.1, l ++ r.2), fun fuel hf => ?_, hP r hp⟩
  obtain ⟨fuel, rfl⟩ : ∃ n, fuel = n + 1 := ⟨fuel - 1, by omega⟩
  rw [hround fuel hf, hr fuel (by omega)]
  rfl

end

end LoggedLoop
