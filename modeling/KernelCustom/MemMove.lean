import KernelCustom.Memory

namespace KernelCustom
open Word32 ByteStore
set_option autoImplicit true

/-- The loop `while (n--) *--d = *--s`. -/
def copyDown (m : Mem) (d s : Nat) : Nat → Mem
  | 0 => m
  | n + 1 => copyDown (Function.update m (sub d 1) (m (sub s 1))) (sub d 1) (sub s 1) n

/-- `memmove`: the pointer it returns, and the memory. The ascending loop is that of `memcpy`. -/
def memmove (m : Mem) (dst src n : Nat) : Nat × Mem :=
  if dst = src ∨ n = 0 then (dst, m)
  else if dst < src then (dst, memcpy m dst src n)
  else (dst, copyDown m (wrap (dst + n)) (wrap (src + n)) n)

/-- One step down from the end of a range, which may be the end of the address space. -/
theorem sub_wrap_succ (h : a + (n + 1) ≤ 4294967296) : sub (wrap (a + (n + 1))) 1 = a + n := by
  simp only [sub, wrap]
  omega

/-- A descending copy to a range that does not end inside the source. The bytes of the source that
the loop has not come to yet lie below those it has written. -/
theorem copyDown_apply (m : Mem) (dst src : Nat) (hd : dst + n ≤ 4294967296)
    (hs : src + n ≤ 4294967296) (hle : src ≤ dst) (x : Nat) :
    copyDown m (wrap (dst + n)) (wrap (src + n)) n x =
      if dst ≤ x ∧ x < dst + n then m (src + (x - dst)) else m x := by
  induction n generalizing m with
  | zero =>
    rw [if_neg (by omega)]
    rfl
  | succ n ih =>
    rw [copyDown, sub_wrap_succ hd, sub_wrap_succ hs]
    have hrest := ih (Function.update m (dst + n) (m (src + n))) (by omega) (by omega)
    rw [wrap_of_lt (by omega), wrap_of_lt (by omega)] at hrest
    rw [hrest]
    by_cases hlast : x = dst + n
    · have hoff : dst + n - dst = n := by omega
      rw [hlast, if_neg (by omega), if_pos (by omega), Function.update_self, hoff]
    · rw [Function.update_of_ne hlast]
      by_cases hin : dst ≤ x ∧ x < dst + n
      · rw [if_pos hin, if_pos (by omega), Function.update_of_ne (by omega)]
      · rw [if_neg hin, if_neg (by omega)]

theorem memmove_apply (m : Mem) (hd : dst + n ≤ 4294967296) (hs : src + n ≤ 4294967296) (x : Nat) :
    (memmove m dst src n).2 x =
      if dst ≤ x ∧ x < dst + n then m (src + (x - dst)) else m x := by
  rw [memmove]
  by_cases hnone : dst = src ∨ n = 0
  · rw [if_pos hnone]
    by_cases hin : dst ≤ x ∧ x < dst + n
    · have hsame : src + (x - dst) = x := by omega
      rw [if_pos hin, hsame]
    · rw [if_neg hin]
  · rw [if_neg hnone]
    by_cases hlt : dst < src
    · rw [if_pos hlt]
      exact memcpy_apply m dst src hd hs (by omega) x
    · rw [if_neg hlt]
      exact copyDown_apply m dst src hd hs (by omega) x

/-- `memmove` copies the old bytes of the source, wherever the destination lies, and leaves all
other bytes alone. -/
theorem memmove_copies (m : Mem) (hd : dst + n ≤ 4294967296) (hs : src + n ≤ 4294967296) :
    (memmove m dst src n).1 = dst ∧
    (∀ k, k < n → (memmove m dst src n).2 (dst + k) = m (src + k)) ∧
    (∀ x, x < dst ∨ dst + n ≤ x → (memmove m dst src n).2 x = m x) := by
  refine ⟨?_, ?_, ?_⟩
  · rw [memmove]
    split
    · rfl
    · split <;> rfl
  · intro k hk
    rw [memmove_apply m hd hs, if_pos (by omega), Nat.add_sub_cancel_left]
  · intro x hx
    rw [memmove_apply m hd hs, if_neg (by omega)]

theorem memmove_copies_to_end :
    (memmove (fun x => UInt8.ofNat x) 0xFFFFFFF8 0xFFFFFFF4 8).2 0xFFFFFFFF = 0xFB := by
  have hd : 0xFFFFFFF8 + 8 ≤ 4294967296 := by decide
  have hs : 0xFFFFFFF4 + 8 ≤ 4294967296 := by decide
  obtain ⟨-, hcopy, -⟩ := memmove_copies (fun x => UInt8.ofNat x) hd hs
  exact hcopy 7 (by decide)

end KernelCustom
