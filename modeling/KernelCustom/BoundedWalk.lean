import Mathlib.Data.Finset.Card
import Mathlib.Data.Finset.Range
import Mathlib.Logic.Function.Iterate

namespace BoundedWalk
set_option autoImplicit true

section
variable {α : Type} {next : α → α} {goesOn : α → Prop}

/-- A walk that comes back to a place it has left. -/
def Returns (next : α → α) (goesOn : α → Prop) (start : α) : Prop :=
  ∃ i j, i < j ∧ (∀ k, k < j → goesOn (next^[k] start)) ∧ next^[i] start = next^[j] start

/-- From there on it goes round in a circle. -/
theorem Returns.forever (h : Returns next goesOn start) (k : Nat) :
    goesOn (next^[k] start) := by
  obtain ⟨i, j, hij, hgo, heq⟩ := h
  induction k using Nat.strong_induction_on with
  | _ k ih =>
    rcases Nat.lt_or_ge k j with hk | hk
    · exact hgo k hk
    · have hback : next^[k] start = next^[k - j + i] start := by
        have hsplit : next^[k - j + j] start = next^[k - j] (next^[j] start) :=
          Function.iterate_add_apply next (k - j) j start
        rw [Nat.sub_add_cancel hk] at hsplit
        rw [hsplit, ← heq, ← Function.iterate_add_apply]
      rw [hback]
      exact ih _ (by omega)

/-- A walk that stays among so many places and takes as many steps comes back. -/
theorem returns_of_long {places : Finset α} (hin : ∀ k, next^[k] start ∈ places)
    (h : ∀ k, k < places.card → goesOn (next^[k] start)) : Returns next goesOn start := by
  have hcard : places.card < (Finset.range (places.card + 1)).card := by
    rw [Finset.card_range]
    exact Nat.lt_succ_self _
  obtain ⟨i, hi, j, hj, hne, heq⟩ := Finset.exists_ne_map_eq_of_card_lt_of_maps_to hcard
    (f := fun k => next^[k] start) fun k _ => hin k
  rw [Finset.mem_range] at hi hj
  rcases Nat.lt_or_gt_of_ne hne with hlt | hlt
  · exact ⟨i, j, hlt, fun k hk => h k (by omega), heq⟩
  · exact ⟨j, i, hlt, fun k hk => h k (by omega), heq.symm⟩

/-- A walk that goes up with each step does not come back. -/
theorem not_returns_of_rising {next : Nat → Nat} {goesOn : Nat → Prop}
    (h : ∀ a, goesOn a → a < next a) (start : Nat) : ¬ Returns next goesOn start := by
  rintro ⟨i, j, hij, hgo, heq⟩
  have hrise : ∀ k, i + k + 1 ≤ j → next^[i] start < next^[i + k + 1] start := by
    intro k
    induction k with
    | zero =>
      intro hk
      rw [Nat.add_zero, Function.iterate_succ_apply']
      exact h _ (hgo i (by omega))
    | succ k ih =>
      intro hk
      refine (ih (by omega)).trans ?_
      rw [Function.iterate_succ_apply' next (i + (k + 1))]
      exact h _ (hgo _ (by omega))
  have hlt := hrise (j - i - 1) (by omega)
  rw [(by omega : i + (j - i - 1) + 1 = j), heq] at hlt
  exact Nat.lt_irrefl _ hlt

end

end BoundedWalk
