import Mathlib.Tactic.Common
import Mathlib.Data.Nat.Bitwise

namespace Bitmap
set_option autoImplicit true

/-- Bit `i` of a bitmap that is kept in words of `w` bits. -/
def bit (w : Nat) (words : Nat → Nat) (i : Nat) : Bool := (words (i / w)).testBit (i % w)

theorem index_eq_iff {i j w : Nat} (h : i / w = j / w) : i % w = j % w ↔ i = j := by
  constructor
  · intro hm
    rw [← Nat.div_add_mod i w, ← Nat.div_add_mod j w, h, hm]
  · rintro rfl
    rfl

/-- Setting one bit of one word. -/
theorem bit_or (words : Nat → Nat) (i j : Nat) :
    bit w (Function.update words (i / w) (words (i / w) ||| (1 <<< (i % w)))) j =
      (decide (i = j) || bit w words j) := by
  simp only [bit, Function.update_apply]
  split
  · next h =>
    rw [Nat.testBit_or, Nat.one_shiftLeft, Nat.testBit_two_pow, Bool.or_comm, h]
    simp only [index_eq_iff h.symm]
  · next h =>
    have hne : i ≠ j := by
      rintro rfl
      exact h rfl
    rw [decide_eq_false hne, Bool.false_or]

/-- Clearing one bit of one word, with any mask that lacks it and has the others. -/
theorem bit_and (words : Nat → Nat) (i j : Nat) (hw : 0 < w)
    (hmask : ∀ k, k < w → mask.testBit k = !decide (i % w = k)) :
    bit w (Function.update words (i / w) (words (i / w) &&& mask)) j =
      (!decide (i = j) && bit w words j) := by
  simp only [bit, Function.update_apply]
  split
  · next h =>
    rw [Nat.testBit_and, hmask _ (Nat.mod_lt _ hw), Bool.and_comm, h]
    simp only [index_eq_iff h.symm]
  · next h =>
    have hne : i ≠ j := by
      rintro rfl
      exact h rfl
    rw [decide_eq_false hne, Bool.not_false, Bool.true_and]

/-- Reading one bit by a shift. -/
theorem shift_and_one (words : Nat → Nat) (i : Nat) :
    decide ((words (i / w) >>> (i % w)) &&& 1 ≠ 0) = bit w words i := by
  rw [bit, Nat.testBit, Nat.and_comm]
  by_cases h : 1 &&& words (i / w) >>> (i % w) = 0
  · simp only [h, ne_eq, not_true_eq_false, decide_false, bne_self_eq_false]
  · simp only [h, ne_eq, not_false_eq_true, decide_true, bne_iff_ne.2 h]

end Bitmap
