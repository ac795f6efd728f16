import Mathlib.Tactic.Common
import Mathlib.Logic.Function.Basic

namespace ByteStore
set_option autoImplicit true

/-- A flat byte-addressed memory. -/
abbrev Mem := Nat → UInt8

/-- The little-endian halfword at an address. -/
def load16 (m : Mem) (a : Nat) : Nat := (m a).toNat + 256 * (m (a + 1)).toNat

/-- The little-endian word at an address. -/
def load32 (m : Mem) (a : Nat) : Nat :=
  (m a).toNat + 256 * (m (a + 1)).toNat + 65536 * (m (a + 2)).toNat +
    16777216 * (m (a + 3)).toNat

def store32 (m : Mem) (a v : Nat) : Mem := fun x =>
  if x = a then UInt8.ofNat v
  else if x = a + 1 then UInt8.ofNat (v / 256)
  else if x = a + 2 then UInt8.ofNat (v / 65536)
  else if x = a + 3 then UInt8.ofNat (v / 16777216)
  else m x

/-- Two memories hold the same bytes from `lo` up to `hi`. -/
def SameOn (m m' : Mem) (lo hi : Nat) : Prop := ∀ x, lo ≤ x → x < hi → m' x = m x

theorem SameOn.refl (m : Mem) (lo hi : Nat) : SameOn m m lo hi := fun _ _ _ => rfl

theorem SameOn.trans (h : SameOn m m' lo hi) (h' : SameOn m' m'' lo hi) :
    SameOn m m'' lo hi := fun x hl hh => (h' x hl hh).trans (h x hl hh)

theorem SameOn.mono (h : SameOn m m' lo hi) (hl : lo ≤ lo') (hh : hi' ≤ hi) :
    SameOn m m' lo' hi' := fun x hx hx' => h x (by omega) (by omega)

theorem load16_lt (m : Mem) (a : Nat) : load16 m a < 65536 := by
  have h₀ := (m a).toNat_lt
  have h₁ := (m (a + 1)).toNat_lt
  simp only [load16]
  omega

theorem load32_lt (m : Mem) (a : Nat) : load32 m a < 4294967296 := by
  have h₀ := (m a).toNat_lt
  have h₁ := (m (a + 1)).toNat_lt
  have h₂ := (m (a + 2)).toNat_lt
  have h₃ := (m (a + 3)).toNat_lt
  simp only [load32]
  omega

theorem SameOn.load16 (h : SameOn m m' lo hi) (hl : lo ≤ a) (hh : a + 2 ≤ hi) :
    ByteStore.load16 m' a = ByteStore.load16 m a := by
  simp only [ByteStore.load16]
  rw [h a (by omega) (by omega), h (a + 1) (by omega) (by omega)]

theorem SameOn.load32 (h : SameOn m m' lo hi) (hl : lo ≤ a) (hh : a + 4 ≤ hi) :
    ByteStore.load32 m' a = ByteStore.load32 m a := by
  simp only [ByteStore.load32]
  rw [h a (by omega) (by omega), h (a + 1) (by omega) (by omega),
    h (a + 2) (by omega) (by omega), h (a + 3) (by omega) (by omega)]

/-- A word determines its bytes. -/
theorem SameOn.of_load32 (h : ByteStore.load32 m' a = ByteStore.load32 m a) :
    SameOn m m' a (a + 4) := by
  intro x hl hu
  have h₀ := (m a).toNat_lt
  have h₁ := (m (a + 1)).toNat_lt
  have h₂ := (m (a + 2)).toNat_lt
  have h₃ := (m (a + 3)).toNat_lt
  have h₀' := (m' a).toNat_lt
  have h₁' := (m' (a + 1)).toNat_lt
  have h₂' := (m' (a + 2)).toNat_lt
  have h₃' := (m' (a + 3)).toNat_lt
  simp only [ByteStore.load32] at h
  apply UInt8.toNat_inj.1
  obtain rfl | rfl | rfl | rfl : x = a ∨ x = a + 1 ∨ x = a + 2 ∨ x = a + 3 := by omega
  · omega
  · omega
  · omega
  · omega

theorem load32_store32 (m : Mem) (a v : Nat) :
    load32 (store32 m a v) a = v % 4294967296 := by
  have h₁ : a + 1 ≠ a := by omega
  have h₂ : a + 2 ≠ a ∧ a + 2 ≠ a + 1 := by omega
  have h₃ : a + 3 ≠ a ∧ a + 3 ≠ a + 1 ∧ a + 3 ≠ a + 2 := by omega
  simp only [load32, store32, ↓reduceIte, h₁, h₂.1, h₂.2, h₃.1, h₃.2.1, h₃.2.2,
    UInt8.toNat_ofNat']
  omega

@[simp] theorem load32_store32_self (m : Mem) (h : v < 4294967296) :
    load32 (store32 m a v) a = v := by
  rw [load32_store32, Nat.mod_eq_of_lt h]

theorem store32_apply_of_outside (h : x < a ∨ a + 4 ≤ x) : store32 m a v x = m x := by
  have h₀ : x ≠ a ∧ x ≠ a + 1 ∧ x ≠ a + 2 ∧ x ≠ a + 3 := by omega
  simp only [store32, h₀.1, h₀.2.1, h₀.2.2.1, h₀.2.2.2, if_false]

theorem store32_sameOn (m : Mem) (v : Nat) (h : hi ≤ a ∨ a + 4 ≤ lo) :
    SameOn m (store32 m a v) lo hi :=
  fun _ _ _ => store32_apply_of_outside (by omega)

theorem load32_store32_of_ne (m : Mem) (v : Nat) (h : b + 4 ≤ a ∨ a + 4 ≤ b) :
    load32 (store32 m a v) b = load32 m b :=
  (store32_sameOn m v (by omega)).load32 (Nat.le_refl b) (Nat.le_refl (b + 4))

theorem update_sameOn (m : Mem) (v : UInt8) (h : hi ≤ a ∨ a < lo) :
    SameOn m (Function.update m a v) lo hi :=
  fun x _ _ => Function.update_of_ne (by omega) _ _

theorem load32_update_of_ne (m : Mem) (v : UInt8) (h : b + 4 ≤ a ∨ a < b) :
    load32 (Function.update m a v) b = load32 m b :=
  (update_sameOn m v (by omega)).load32 (Nat.le_refl b) (Nat.le_refl (b + 4))

/-- At most `n` bytes differ. -/
def FewChanges (n : Nat) (m m' : Mem) : Prop :=
  ∃ l : List Nat, l.length ≤ n ∧ ∀ x, x ∉ l → m' x = m x

theorem FewChanges.refl (n : Nat) (m : Mem) : FewChanges n m m :=
  ⟨[], Nat.zero_le n, fun _ _ => rfl⟩

theorem FewChanges.trans (h : FewChanges n m m') (h' : FewChanges k m' m'') :
    FewChanges (n + k) m m'' := by
  obtain ⟨l, hl, hsame⟩ := h
  obtain ⟨l', hl', hsame'⟩ := h'
  refine ⟨l ++ l', by rw [List.length_append]; omega, fun x hx => ?_⟩
  rw [List.mem_append, not_or] at hx
  exact (hsame' x hx.2).trans (hsame x hx.1)

theorem store32_few (m : Mem) (a v : Nat) : FewChanges 4 m (store32 m a v) := by
  refine ⟨[a, a + 1, a + 2, a + 3], Nat.le_refl 4, fun x hx => ?_⟩
  simp only [List.mem_cons, List.not_mem_nil, or_false, not_or] at hx
  exact store32_apply_of_outside (by omega)

theorem update_few (m : Mem) (a : Nat) (v : UInt8) : FewChanges 1 m (Function.update m a v) := by
  refine ⟨[a], Nat.le_refl 1, fun x hx => ?_⟩
  exact Function.update_of_ne (fun heq => hx (List.mem_singleton.2 heq)) ..

/-- What is done to each byte on its own makes no more bytes differ. -/
theorem FewChanges.pointwise (h : FewChanges n m m') (f : Nat → UInt8 → UInt8) :
    FewChanges n (fun x => f x (m x)) fun x => f x (m' x) := by
  obtain ⟨l, hl, hsame⟩ := h
  exact ⟨l, hl, fun x hx => congrArg (f x) (hsame x hx)⟩

/-- A longer range holds a byte that is the same. -/
theorem FewChanges.exists_same (h : FewChanges n m m') (a : Nat) :
    ∃ x, a ≤ x ∧ x ≤ a + n ∧ m' x = m x := by
  obtain ⟨l, hl, hsame⟩ := h
  by_contra hnone
  have hsub : List.range' a (n + 1) ⊆ l := by
    intro x hx
    rw [List.mem_range'_1] at hx
    by_contra hmem
    exact hnone ⟨x, hx.1, by omega, hsame x hmem⟩
  have hle := (List.nodup_range' 1).length_le_of_subset hsub
  rw [List.length_range'] at hle
  omega

end ByteStore
