import Mathlib.Tactic.Common
import Mathlib.Data.Nat.Bitwise

namespace Word32
set_option autoImplicit true

/-- The part of a number that a 32-bit register keeps. -/
def wrap (n : Nat) : Nat := n % 4294967296

/-- Bitwise complement of a 32-bit word. -/
def compl (n : Nat) : Nat := 4294967295 - n

/-- Subtraction in a 32-bit register. -/
def sub (a b : Nat) : Nat := wrap (a + 4294967296 - b)

theorem wrap_lt (n : Nat) : wrap n < 4294967296 := Nat.mod_lt _ (by decide)

theorem wrap_of_lt (h : n < 4294967296) : wrap n = n := Nat.mod_eq_of_lt h

/-! A sum may be cut at each step or once at its end. -/

theorem wrap_wrap_add (a b : Nat) : wrap (wrap a + b) = wrap (a + b) := Nat.mod_add_mod a _ b

theorem wrap_add_wrap (a b : Nat) : wrap (a + wrap b) = wrap (a + b) := Nat.add_mod_mod a b _

theorem sub_of_le (h : b ≤ a) (ha : a < 4294967296) : sub a b = a - b := by
  simp only [sub, wrap]
  omega

/-- Clearing the low bits of a word rounds it down to a multiple. -/
theorem and_compl_low (k : Nat) (hk : k ≤ 32) (hn : n < 4294967296) :
    n &&& compl (2 ^ k - 1) = n / 2 ^ k * 2 ^ k := by
  have hk' : 2 ^ k - 1 < 2 ^ 32 := by
    have := Nat.pow_le_pow_right (n := 2) (by decide) hk
    have := Nat.two_pow_pos k
    omega
  have hc : compl (2 ^ k - 1) = 2 ^ 32 - (2 ^ k - 1 + 1) := by
    simp only [compl]
    omega
  apply Nat.eq_of_testBit_eq
  intro i
  rw [hc, Nat.testBit_and, Nat.testBit_two_pow_sub_succ hk', Nat.testBit_two_pow_sub_one,
    Nat.testBit_mul_two_pow, Nat.testBit_div_two_pow]
  by_cases hi : k ≤ i
  · have hs : i - k + k = i := by omega
    have hb : n.testBit i = true → i < 32 := by
      intro hb
      by_contra hlt
      have := Nat.ge_two_pow_of_testBit hb
      have := Nat.pow_le_pow_right (n := 2) (by decide) (Nat.le_of_not_lt hlt)
      omega
    rw [hs]
    cases hbit : n.testBit i with
    | false => simp
    | true => simp [hi, hb hbit]
  · have hlt : i < k := by omega
    simp [hi, hlt]

/-- Rounding up to a multiple, with the sum taken in a 32-bit register. -/
def alignUp (value align : Nat) : Nat := wrap (value + align - 1) &&& compl (align - 1)

theorem alignUp_two_pow (k : Nat) (hk : k ≤ 32) (v : Nat) :
    alignUp v (2 ^ k) = wrap (v + 2 ^ k - 1) / 2 ^ k * 2 ^ k :=
  and_compl_low k hk (wrap_lt _)

theorem alignUp_sixteen (v : Nat) : alignUp v 16 = (v + 15) % 4294967296 / 16 * 16 :=
  alignUp_two_pow 4 (by decide) v

theorem alignUp_page (v : Nat) : alignUp v 4096 = (v + 4095) % 4294967296 / 4096 * 4096 :=
  alignUp_two_pow 12 (by decide) v

theorem and_page_mask (h : n < 4294967296) : n &&& 0xFFFFF000 = n / 4096 * 4096 :=
  and_compl_low 12 (by decide) h

end Word32
