import Mathlib.Logic.Function.Basic
import Mathlib.Data.List.Range

namespace RingBuffer
set_option autoImplicit true

/-- A queue in an array of `n` slots: `head` is where the next element goes, `tail` where the oldest
one is. -/
structure Ring (n : Nat) (α : Type) where
  head : Nat
  tail : Nat
  slot : Nat → α

section
variable {n : Nat} {α : Type}

def Ring.Valid (r : Ring n α) : Prop := r.head < n ∧ r.tail < n

/-- The number of elements. -/
def Ring.count (r : Ring n α) : Nat := (r.head + (n - r.tail)) % n

/-- The elements, the oldest first. -/
def Ring.contents (r : Ring n α) : List α :=
  (List.range r.count).map fun i => r.slot ((r.tail + i) % n)

/-- Adds an element, unless `head` would catch up with `tail`. -/
def Ring.push (r : Ring n α) (a : α) : Ring n α :=
  if (r.head + 1) % n ≠ r.tail then
    { r with slot := Function.update r.slot r.head a, head := (r.head + 1) % n }
  else r

/-- Takes the oldest element. -/
def Ring.pop (r : Ring n α) : Option (α × Ring n α) :=
  if r.head = r.tail then none
  else some (r.slot r.tail, { r with tail := (r.tail + 1) % n })

theorem add_mod_eq (ha : a < n) (hb : b ≤ n) :
    (a + b) % n = if a + b < n then a + b else a + b - n := by
  split
  · next h => exact Nat.mod_eq_of_lt h
  · next h =>
    rw [Nat.mod_eq_sub_mod (by omega)]
    exact Nat.mod_eq_of_lt (by omega)

theorem Ring.Valid.count_eq {r : Ring n α} (h : r.Valid) :
    r.count = if r.tail ≤ r.head then r.head - r.tail else r.head + n - r.tail := by
  obtain ⟨hh, ht⟩ := h
  rw [Ring.count, add_mod_eq hh (by omega)]
  split <;> split <;> omega

theorem Ring.Valid.push {r : Ring n α} (h : r.Valid) (a : α) : (r.push a).Valid := by
  rw [Ring.push]
  split
  · exact ⟨Nat.mod_lt _ (by have := h.1; omega), h.2⟩
  · exact h

theorem Ring.Valid.pop {r r' : Ring n α} (h : r.Valid) (hp : r.pop = some (a, r')) : r'.Valid := by
  rw [Ring.pop] at hp
  split at hp
  · cases hp
  · cases hp
    exact ⟨h.1, Nat.mod_lt _ (by have := h.1; omega)⟩

theorem Ring.Valid.pop_none {r : Ring n α} (h : r.Valid) : r.pop = none ↔ r.contents = [] := by
  have hcount := h.count_eq
  obtain ⟨hh, ht⟩ := h
  rw [Ring.pop, Ring.contents, List.map_eq_nil_iff, List.range_eq_nil]
  constructor
  · intro hp
    split at hp
    · next heq =>
      rw [hcount, heq, if_pos (Nat.le_refl _), Nat.sub_self]
    · cases hp
  · intro hz
    rw [if_pos]
    rw [hz] at hcount
    split at hcount <;> omega

/-- The element that is taken is the oldest one. -/
theorem Ring.Valid.pop_some {r r' : Ring n α} (h : r.Valid) (hp : r.pop = some (a, r')) :
    r.contents = a :: r'.contents := by
  have hv := h.pop hp
  have hcount := h.count_eq
  have hcount' := hv.count_eq
  obtain ⟨hh, ht⟩ := h
  rw [Ring.pop] at hp
  split at hp
  · cases hp
  · next hne =>
    cases hp
    have hnext := add_mod_eq (b := 1) ht (by omega)
    have hsucc : r.count = ({ r with tail := (r.tail + 1) % n } : Ring n α).count + 1 := by
      rw [hcount, hcount']
      dsimp only
      rw [hnext]
      split <;> split <;> split <;> omega
    rw [Ring.contents, Ring.contents, hsucc, List.range_succ_eq_map, List.map_cons, List.map_map,
      Nat.add_zero, Nat.mod_eq_of_lt ht]
    congr 1
    apply List.map_congr_left
    intro i _
    dsimp only [Function.comp]
    rw [Nat.mod_add_mod, Nat.add_assoc, Nat.add_comm 1]

/-- There is room for an element exactly when fewer than `n - 1` are there. -/
theorem Ring.Valid.room_iff {r : Ring n α} (h : r.Valid) :
    (r.head + 1) % n ≠ r.tail ↔ r.contents.length < n - 1 := by
  have hcount := h.count_eq
  obtain ⟨hh, ht⟩ := h
  rw [Ring.contents, List.length_map, List.length_range, hcount, add_mod_eq hh (by omega)]
  split <;> split <;> omega

theorem Ring.push_of_full {r : Ring n α} (hfull : ¬ (r.head + 1) % n ≠ r.tail) (a : α) :
    r.push a = r := if_neg hfull

/-- An element is added behind the others. -/
theorem Ring.Valid.contents_push_of_room {r : Ring n α} (h : r.Valid)
    (hroom : (r.head + 1) % n ≠ r.tail) (a : α) : (r.push a).contents = r.contents ++ [a] := by
  have hcount := h.count_eq
  have hv := h.push a
  obtain ⟨hh, ht⟩ := h
  have hnext := add_mod_eq (b := 1) hh (by omega)
  have hpush : r.push a =
      { r with slot := Function.update r.slot r.head a, head := (r.head + 1) % n } :=
    if_pos hroom
  rw [hpush] at hv ⊢
  have hcount' := hv.count_eq
  rw [hnext] at hroom
  have hsucc : ({ r with
      slot := Function.update r.slot r.head a, head := (r.head + 1) % n } : Ring n α).count =
        r.count + 1 := by
    rw [hcount', hcount]
    dsimp only
    rw [hnext]
    by_cases hlast : r.head + 1 < n
    · rw [if_pos hlast] at hroom ⊢
      split <;> split <;> omega
    · rw [if_neg hlast] at hroom ⊢
      split <;> split <;> omega
  have hlt : r.count < n := Nat.mod_lt _ (by omega)
  have hslot : ∀ i ≤ r.count, (r.tail + i) % n = r.head ↔ i = r.count := by
    intro i hi
    rw [add_mod_eq ht (by omega)]
    split at hcount <;> split <;> omega
  rw [Ring.contents, Ring.contents, hsucc, List.range_succ, List.map_append, List.map_singleton]
  congr 1
  · apply List.map_congr_left
    intro i hi
    have hi' := List.mem_range.1 hi
    exact Function.update_of_ne (fun heq => by have := (hslot i (by omega)).1 heq; omega) _ _
  · dsimp only
    rw [(hslot r.count (Nat.le_refl _)).2 rfl, Function.update_self]

/-- An element is added behind the others; when `n - 1` are there it is dropped. -/
theorem Ring.Valid.contents_push {r : Ring n α} (h : r.Valid) (a : α) :
    (r.push a).contents = r.contents ++ [a] ∨ (r.push a).contents = r.contents := by
  by_cases hroom : (r.head + 1) % n ≠ r.tail
  · exact .inl (h.contents_push_of_room hroom a)
  · exact .inr (by rw [Ring.push_of_full hroom])

/-- The oldest element is in the slot at `tail`. -/
theorem Ring.Valid.contents_cons {r : Ring n α} (h : r.Valid) (hne : r.contents ≠ []) :
    r.contents = r.slot r.tail :: ({ r with tail := (r.tail + 1) % n } : Ring n α).contents := by
  have hpop : r.pop ≠ none := fun hn => hne (h.pop_none.1 hn)
  rw [Ring.pop] at hpop
  split at hpop
  · exact absurd rfl hpop
  · next hht => exact h.pop_some (if_neg hht)

theorem Ring.Valid.contents_eq_nil_iff {r : Ring n α} (h : r.Valid) :
    r.contents = [] ↔ r.head = r.tail := by
  rw [← h.pop_none, Ring.pop]
  split
  · next heq => exact iff_of_true rfl heq
  · next hne => exact iff_of_false (Option.some_ne_none _) hne

end

end RingBuffer
