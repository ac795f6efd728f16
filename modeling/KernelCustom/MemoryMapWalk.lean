import KernelCustom.MemoryInit
import KernelCustom.BoundedWalk

namespace KernelCustom
open Word32 ByteStore BoundedWalk
set_option autoImplicit true

/-- The `length` of the entry at an offset of the map. -/
def entryStep (m : Mem) (mb offset : Nat) : Nat :=
  wrap (entrySize m (wrap (mbMmapAddr m mb + offset)) + 4)

def nextOffset (m : Mem) (mb offset : Nat) : Nat := wrap (offset + entryStep m mb offset)

/-- The loops go on behind the entry at an offset. -/
def GoesOn (m : Mem) (mb offset : Nat) : Prop :=
  offset < mbMmapLength m mb ∧ entryStep m mb offset ≠ 0

/-- The rounds run out exactly when the loop goes on behind all the entries it comes to. -/
theorem mmapLoop_none_iff (visit : Nat → σ → σ) :
    mmapLoop m mb visit fuel offset acc = none ↔
      ∀ k, k < fuel → GoesOn m mb ((nextOffset m mb)^[k] offset) := by
  induction fuel generalizing offset acc with
  | zero => exact iff_of_true rfl fun k hk => absurd hk (Nat.not_lt_zero k)
  | succ fuel ih =>
    rw [Nat.forall_lt_succ_left]
    simp only [Function.iterate_succ_apply]
    rw [mmapLoop]
    by_cases hlt : offset < mbMmapLength m mb
    · rw [if_pos hlt]
      by_cases hstep : entryStep m mb offset = 0
      · have hstop : wrap (entrySize m (wrap (mbMmapAddr m mb + offset)) + 4) = 0 := hstep
        simp only [hstop, if_true]
        exact iff_of_false (fun h => by cases h) fun h => h.1.2 hstep
      · have hgo : wrap (entrySize m (wrap (mbMmapAddr m mb + offset)) + 4) ≠ 0 := hstep
        simp only [if_neg hgo]
        exact ih.trans (and_iff_right ⟨hlt, hstep⟩).symm
    · rw [if_neg hlt]
      exact iff_of_false (fun h => by cases h) fun h => hlt h.1.1

theorem nextOffset_lt (m : Mem) (mb k : Nat) :
    (nextOffset m mb)^[k] 0 ∈ Finset.range 4294967296 := by
  rw [Finset.mem_range]
  cases k with
  | zero => exact Nat.zero_lt_of_lt (wrap_lt 0)
  | succ k =>
    rw [Function.iterate_succ_apply']
    exact wrap_lt _

/-- A walk over the map ends, after `2 ^ 32` rounds at most, unless it comes back to an offset. -/
theorem mmapLoop_isSome_iff (m : Mem) (mb : Nat) (visit : Nat → σ → σ) (acc : σ) :
    (mmapLoop m mb visit 4294967296 0 acc).isSome ↔
      ¬ Returns (nextOffset m mb) (GoesOn m mb) 0 := by
  rw [Option.isSome_iff_ne_none, Ne, mmapLoop_none_iff, not_iff_not]
  constructor
  · intro h
    refine returns_of_long (nextOffset_lt m mb) ?_
    rwa [Finset.card_range]
  · intro h k _
    exact h.forever k

theorem mmapLoop_ends_iff (m : Mem) (mb : Nat) (visit : Nat → σ → σ) (acc : σ) :
    (∃ fuel, (mmapLoop m mb visit fuel 0 acc).isSome) ↔
      ¬ Returns (nextOffset m mb) (GoesOn m mb) 0 := by
  constructor
  · rintro ⟨fuel, hsome⟩ hreturns
    rw [Option.isSome_iff_ne_none] at hsome
    exact hsome ((mmapLoop_none_iff visit).2 fun k _ => hreturns.forever k)
  · intro h
    exact ⟨4294967296, (mmapLoop_isSome_iff m mb visit acc).2 h⟩

/-- As long as no step wraps round, a walk ends. -/
theorem walk_ends_without_wrap
    (h : ∀ offset, GoesOn m mb offset → offset + entryStep m mb offset < 4294967296) :
    ¬ Returns (nextOffset m mb) (GoesOn m mb) 0 := by
  apply not_returns_of_rising
  intro offset hgo
  have hpos := Nat.pos_of_ne_zero hgo.2
  rw [nextOffset, wrap_of_lt (h offset hgo)]
  omega

/-- A map of 48 bytes whose second entry leads back to the first. -/
def cyclicMap : Mem :=
  let m : Mem := fun _ => 0
  let m := store32 m 0x9000 (1 <<< 6)
  let m := store32 m (0x9000 + 44) 48
  let m := store32 m (0x9000 + 48) 0xA000
  let m := store32 m 0xA000 20
  store32 m (0xA000 + 24) (0xFFFFFFFF - 27)

theorem cyclicMap_returns : Returns (nextOffset cyclicMap 0x9000) (GoesOn cyclicMap 0x9000) 0 := by
  have h₀ : GoesOn cyclicMap 0x9000 0 ∧ nextOffset cyclicMap 0x9000 0 = 24 := by
    unfold GoesOn
    decide +kernel
  have h₁ : GoesOn cyclicMap 0x9000 24 ∧ nextOffset cyclicMap 0x9000 24 = 0 := by
    unfold GoesOn
    decide +kernel
  refine ⟨0, 2, by decide, ?_, ?_⟩
  · intro k hk
    rcases Nat.lt_succ_iff_lt_or_eq.1 hk with hk | rfl
    · rw [Nat.lt_one_iff.1 hk]
      exact h₀.1
    · rw [Function.iterate_one, h₀.2]
      exact h₁.1
  · rw [Function.iterate_succ_apply, Function.iterate_one, h₀.2, h₁.2]
    rfl

theorem mmap_walk_without_end :
    ¬ ∃ fuel, (mmapLoop cyclicMap 0x9000 (raiseEnd cyclicMap) fuel 0 0).isSome :=
  fun h => (mmapLoop_ends_iff _ _ _ _).1 h cyclicMap_returns

/-- The walk of `detect_memory_bytes` and that of `memory_init` end exactly when the offsets from 0
on never come back to one that they have passed. -/
theorem mmap_walks_end_iff (m : Mem) (mb : Nat) (s : MemoryState) :
    ((∃ fuel, (mmapLoop m mb (raiseEnd m) fuel 0 0).isSome) ↔
        ¬ Returns (nextOffset m mb) (GoesOn m mb) 0) ∧
      ((∃ fuel, (mmapLoop m mb (freeEntry m) fuel 0 s).isSome) ↔
        ¬ Returns (nextOffset m mb) (GoesOn m mb) 0) :=
  ⟨mmapLoop_ends_iff m mb _ _, mmapLoop_ends_iff m mb _ _⟩

end KernelCustom
