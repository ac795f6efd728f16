import KernelCustom.ByteStore
import Mathlib.Data.List.GetD
import Mathlib.Data.List.TakeWhile

namespace CString
open ByteStore
set_option autoImplicit true

/-- What a C string says: its bytes before the closing NUL. -/
structure Text where
  chars : List UInt8
  no_nul : 0 ∉ chars
  deriving DecidableEq

/-- The byte of a string at an index up to that of its NUL. -/
def Text.char (t : Text) (i : Nat) : UInt8 := t.chars.getD i 0

/-- The string in an array that holds some bytes and then a NUL. -/
def Text.ofBytes (l : List UInt8) : Text where
  chars := l.takeWhile (· ≠ 0)
  no_nul := by
    intro h
    simpa using List.mem_takeWhile_imp h

theorem Text.ofBytes_chars (h : 0 ∉ l) : (Text.ofBytes l).chars = l := by
  rw [Text.ofBytes, List.takeWhile_eq_self_iff]
  intro b hb
  exact decide_eq_true fun hz => h (hz ▸ hb)

theorem Text.ofBytes_self (t : Text) : Text.ofBytes t.chars = t := by
  have h := Text.ofBytes_chars t.no_nul
  cases t
  rw [Text.mk.injEq]
  exact h

def strlen (t : Text) : Nat := t.chars.length

/-- The difference of the first bytes in which two strings differ, the NUL counted as a byte. -/
def compareBytes : List UInt8 → List UInt8 → Int
  | [], [] => 0
  | a :: _, [] => a.toNat
  | [], b :: _ => -b.toNat
  | a :: l, b :: l' => if a = b then compareBytes l l' else a.toNat - b.toNat

def strcmp (s t : Text) : Int := compareBytes s.chars t.chars

/-- `strncmp` looks at no more than `n` bytes, and at none behind a NUL. -/
def strncmp (s t : Nat → UInt8) : Nat → Int
  | 0 => 0
  | n + 1 =>
    if s 0 ≠ t 0 then (s 0).toNat - (t 0).toNat
    else if s 0 = 0 then 0
    else strncmp (fun i => s (i + 1)) (fun i => t (i + 1)) n

/-- The bytes of a memory from an address on. -/
def bytesAt (m : Mem) (a : Nat) : Nat → List UInt8
  | 0 => []
  | n + 1 => m a :: bytesAt m (a + 1) n

@[simp] theorem length_bytesAt (m : Mem) (a n : Nat) : (bytesAt m a n).length = n := by
  induction n generalizing a with
  | zero => rfl
  | succ n ih => rw [bytesAt, List.length_cons, ih]

theorem bytesAt_congr (h : SameOn m m' lo hi) (hl : lo ≤ a) (hh : a + n ≤ hi) :
    bytesAt m' a n = bytesAt m a n := by
  induction n generalizing a with
  | zero => rfl
  | succ n ih => rw [bytesAt, bytesAt, h a hl (by omega), ih (by omega) (by omega)]

theorem toNat_sub_ne_zero {a b : UInt8} (h : a ≠ b) : (a.toNat : Int) - b.toNat ≠ 0 := by
  intro hz
  exact h (UInt8.toNat_inj.1 (by omega))

theorem compareBytes_eq_zero_iff (h : 0 ∉ l) (h' : 0 ∉ l') : compareBytes l l' = 0 ↔ l = l' := by
  induction l generalizing l' with
  | nil =>
    cases l' with
    | nil => exact iff_of_true rfl rfl
    | cons b l' =>
      have hb := toNat_sub_ne_zero (List.ne_of_not_mem_cons h')
      refine iff_of_false ?_ (by simp)
      rw [compareBytes]
      simp only [UInt8.toNat_zero] at hb
      omega
  | cons a l ih =>
    cases l' with
    | nil =>
      have ha := toNat_sub_ne_zero (List.ne_of_not_mem_cons h)
      refine iff_of_false ?_ (by simp)
      rw [compareBytes]
      simp only [UInt8.toNat_zero] at ha
      omega
    | cons b l' =>
      rw [compareBytes, List.cons.injEq]
      by_cases hab : a = b
      · rw [if_pos hab, ih (List.not_mem_of_not_mem_cons h) (List.not_mem_of_not_mem_cons h')]
        exact (and_iff_right hab).symm
      · rw [if_neg hab]
        exact iff_of_false (toNat_sub_ne_zero hab) fun h => hab h.1

/-- Two strings compare equal exactly when they are the same. -/
theorem strcmp_eq_zero_iff (s t : Text) : strcmp s t = 0 ↔ s.chars = t.chars :=
  compareBytes_eq_zero_iff s.no_nul t.no_nul

/-- A field of bytes that is as long as a string and agrees with it up to that length is the
string. -/
theorem strncmp_eq_zero_iff (m : Mem) (a : Nat) (h : 0 ∉ l) :
    strncmp (fun i => m (a + i)) (fun i => l.getD i 0) l.length = 0 ↔
      bytesAt m a l.length = l := by
  induction l generalizing a with
  | nil => exact iff_of_true rfl rfl
  | cons b l ih =>
    have hshift : (fun i => m (a + (i + 1))) = fun i => m (a + 1 + i) := by
      funext i
      rw [Nat.add_assoc, Nat.add_comm 1]
    rw [List.length_cons, strncmp, bytesAt, List.cons.injEq]
    simp only [Nat.add_zero, List.getD_cons_zero, List.getD_cons_succ]
    by_cases hb : m a = b
    · rw [if_neg (not_not.2 hb), if_neg (hb ▸ (List.ne_of_not_mem_cons h).symm), hshift,
        ih (a + 1) (List.not_mem_of_not_mem_cons h)]
      exact (and_iff_right hb).symm
    · rw [if_pos hb]
      exact iff_of_false (toNat_sub_ne_zero hb) fun h => hb h.1

/-- The string from an index on. -/
def Text.drop (t : Text) (n : Nat) : Text :=
  ⟨t.chars.drop n, fun h => t.no_nul (List.mem_of_mem_drop h)⟩

theorem strncmp_getD_eq_zero_iff (l : List UInt8) (h : 0 ∉ l') :
    strncmp (fun i => l.getD i 0) (fun i => l'.getD i 0) l'.length = 0 ↔ l' <+: l := by
  induction l' generalizing l with
  | nil => exact iff_of_true rfl (List.nil_prefix)
  | cons b l' ih =>
    rw [List.length_cons, strncmp]
    cases l with
    | nil =>
      have hb : (0 : UInt8) ≠ b := List.ne_of_not_mem_cons h
      refine iff_of_false ?_ (by simp)
      rw [List.getD_nil, List.getD_cons_zero, if_pos hb]
      exact toNat_sub_ne_zero hb
    | cons a l =>
      simp only [List.getD_cons_zero, List.getD_cons_succ]
      rw [List.cons_prefix_cons]
      by_cases hab : a = b
      · rw [if_neg (not_not.2 hab), if_neg (hab ▸ (List.ne_of_not_mem_cons h).symm),
          ih l (List.not_mem_of_not_mem_cons h), and_iff_right hab.symm]
      · rw [if_pos hab]
        exact iff_of_false (toNat_sub_ne_zero hab) fun hp => hab hp.1.symm

/-- A compare with the length of a word asks whether the string begins with the word. -/
theorem strncmp_eq_zero_iff_prefix (t w : Text) :
    strncmp t.char w.char w.chars.length = 0 ↔ w.chars <+: t.chars :=
  strncmp_getD_eq_zero_iff t.chars w.no_nul

/-- The first index at which a loop over an array stops, within a bound. -/
def stopIndex (stop : Nat → Bool) : Nat → Nat
  | 0 => 0
  | bound + 1 => if stop 0 then 0 else stopIndex (fun i => stop (i + 1)) bound + 1

theorem stopIndex_le {stop : Nat → Bool} (h : stop n = true) (hn : n < bound) :
    stopIndex stop bound ≤ n := by
  induction bound generalizing stop n with
  | zero => omega
  | succ bound ih =>
    rw [stopIndex]
    split
    · exact Nat.zero_le n
    · cases n with
      | zero => contradiction
      | succ n => exact Nat.succ_le_succ (ih h (by omega))

theorem stopIndex_stop (stop : Nat → Bool) (h : stop n = true) (hn : n < bound) :
    stop (stopIndex stop bound) = true := by
  induction bound generalizing stop n with
  | zero => omega
  | succ bound ih =>
    rw [stopIndex]
    split
    · assumption
    · cases n with
      | zero => contradiction
      | succ n => exact ih (fun i => stop (i + 1)) h (by omega)

theorem stopIndex_congr {stop stop' : Nat → Bool} (h : ∀ i, i ≤ n → stop i = stop' i)
    (hn : stop n = true) : stopIndex stop bound = stopIndex stop' bound := by
  induction bound generalizing stop stop' n with
  | zero => rfl
  | succ bound ih =>
    rw [stopIndex, stopIndex, h 0 (Nat.zero_le n)]
    split
    · rfl
    · next h₀ =>
      cases n with
      | zero =>
        rw [h 0 (Nat.le_refl 0)] at hn
        contradiction
      | succ n =>
        have hrest : stopIndex (fun i => stop (i + 1)) bound =
            stopIndex (fun i => stop' (i + 1)) bound :=
          ih (n := n) (fun i hi => h (i + 1) (by omega)) hn
        rw [hrest]

/-- `strlen` of an array; the loop cannot leave the address space. -/
def arrayLength (a : Int → UInt8) : Nat := stopIndex (fun i => a i == 0) 4294967296

/-- The index at which `strcmp` of two arrays stops. -/
def compareIndex (a b : Int → UInt8) : Nat :=
  stopIndex (fun i => a i != b i || a i == 0) 4294967296

/-- `strcpy`: the bytes of the string and its NUL. -/
def strcpy (dst src : Int → UInt8) : Int → UInt8 :=
  fun i => if 0 ≤ i ∧ i ≤ arrayLength src then src i else dst i

def arrayText (a : Int → UInt8) : List UInt8 := (List.range (arrayLength a)).map fun i : Nat => a i

theorem arrayLength_le {a : Int → UInt8} {n : Nat} (h : a n = 0) (hn : n < 4294967296) :
    arrayLength a ≤ n := stopIndex_le (beq_iff_eq.2 h) hn

theorem compareIndex_le {a b : Int → UInt8} {n : Nat} (h : b n = 0) (hn : n < 4294967296) :
    compareIndex a b ≤ n := by
  refine stopIndex_le ?_ hn
  by_cases ha : a n = 0
  · rw [ha, beq_self_eq_true, Bool.or_true]
  · rw [h, bne_iff_ne.2 ha, Bool.true_or]

theorem strcpy_nul {src : Int → UInt8} {n : Nat} (dst : Int → UInt8) (h : src n = 0)
    (hn : n < 4294967296) :
    strcpy dst src (arrayLength src) = 0 ∧ arrayLength (strcpy dst src) = arrayLength src := by
  have hstop : src (arrayLength src) = 0 := by
    have := stopIndex_stop (fun i : Nat => src i == 0) (beq_iff_eq.2 h) hn
    exact beq_iff_eq.1 this
  have hcopy : ∀ i : Nat, i ≤ arrayLength src → strcpy dst src i = src i := by
    intro i hi
    rw [strcpy, if_pos (by omega)]
  refine ⟨(hcopy _ (Nat.le_refl _)).trans hstop, ?_⟩
  refine stopIndex_congr (n := arrayLength src) (fun i hi => ?_) ?_
  · rw [hcopy i hi]
  · rw [hcopy _ (Nat.le_refl _), hstop]
    rfl

/-- An array begins with some bytes. -/
def Begins (a : Int → UInt8) (t : List UInt8) : Prop := ∀ i : Nat, i < t.length → a i = t.getD i 0

/-- An array holds a string with its NUL. -/
structure Spells (a : Int → UInt8) (t : List UInt8) : Prop where
  begins : Begins a t
  nul : a t.length = 0
  no_nul : 0 ∉ t
  short : t.length < 4294967296

theorem Spells.length {a : Int → UInt8} (h : Spells a t) : arrayLength a = t.length := by
  have hle : arrayLength a ≤ t.length := arrayLength_le h.nul h.short
  have hstop : a (arrayLength a) = 0 := by
    have := stopIndex_stop (fun i : Nat => a i == 0) (beq_iff_eq.2 h.nul) h.short
    exact beq_iff_eq.1 this
  by_contra hne
  have hlt : arrayLength a < t.length := by omega
  rw [h.begins _ hlt, List.getD_eq_getElem _ _ hlt] at hstop
  exact h.no_nul (hstop ▸ List.getElem_mem hlt)

theorem Spells.text {a : Int → UInt8} (h : Spells a t) : arrayText a = t := by
  rw [arrayText, h.length]
  apply List.ext_getElem
  · rw [List.length_map, List.length_range]
  · intro i hi hi'
    rw [List.getElem_map, List.getElem_range, h.begins i hi', List.getD_eq_getElem _ _ hi']

theorem Spells.head_iff {a : Int → UInt8} (h : Spells a t) : a 0 = 0 ↔ t = [] := by
  cases t with
  | nil => exact iff_of_true h.nul rfl
  | cons c t =>
    refine iff_of_false (fun hz => ?_) (List.cons_ne_nil c t)
    have hc : a 0 = c := h.begins 0 (Nat.succ_pos _)
    exact h.no_nul (List.mem_cons.2 (.inl (hz.symm.trans hc)))

/-- An array with a NUL holds a string. -/
theorem spells_arrayText {a : Int → UInt8} {n : Nat} (h : a n = 0) (hn : n < 4294967296) :
    Spells a (arrayText a) := by
  have hle := arrayLength_le h hn
  have hlength : (arrayText a).length = arrayLength a := by
    rw [arrayText, List.length_map, List.length_range]
  refine ⟨fun i hi => ?_, ?_, fun hz => ?_, by omega⟩
  · rw [hlength] at hi
    rw [arrayText, List.getD_eq_getElem?_getD, List.getElem?_map, List.getElem?_range hi]
    rfl
  · rw [hlength]
    exact beq_iff_eq.1 (stopIndex_stop (fun i : Nat => a i == 0) (beq_iff_eq.2 h) hn)
  · obtain ⟨i, hi, hz⟩ := List.mem_map.1 hz
    rw [List.mem_range] at hi
    have hmin : arrayLength a ≤ i := arrayLength_le hz (by omega)
    omega

/-- `strcpy` copies the string. -/
theorem Spells.strcpy {src : Int → UInt8} (h : Spells src t) (dst : Int → UInt8) :
    Spells (strcpy dst src) t := by
  have hlength := h.length
  refine ⟨fun i hi => ?_, ?_, h.no_nul, h.short⟩
  · rw [CString.strcpy, if_pos (by omega)]
    exact h.begins i hi
  · rw [CString.strcpy, if_pos (by omega)]
    exact h.nul

/-- In front of the index at which `strcmp` stops the strings agree and have no NUL. -/
theorem compareIndex_pass {a b : Int → UInt8} {n i : Nat} (h : b n = 0) (hn : n < 4294967296)
    (hi : i < compareIndex a b) : a i = b i ∧ a i ≠ 0 := by
  have hle : compareIndex a b ≤ n := compareIndex_le h hn
  by_contra hstop
  have hstop' : (fun i : Nat => a i != b i || a i == 0) i = true := by
    dsimp only
    rw [Bool.or_eq_true, bne_iff_ne, beq_iff_eq]
    by_cases hab : a i = b i
    · exact .inr (not_not.1 fun hz => hstop ⟨hab, hz⟩)
    · exact .inl hab
  have hmin : compareIndex a b ≤ i := stopIndex_le hstop' (by omega)
  omega

theorem compareIndex_stop {a b : Int → UInt8} {n : Nat} (h : b n = 0) (hn : n < 4294967296) :
    a (compareIndex a b) ≠ b (compareIndex a b) ∨ a (compareIndex a b) = 0 := by
  have hend : (fun i : Nat => a i != b i || a i == 0) n = true := by
    dsimp only
    by_cases hz : a n = 0
    · rw [hz, beq_self_eq_true, Bool.or_true]
    · rw [h, bne_iff_ne.2 hz, Bool.true_or]
  have hstop := stopIndex_stop (fun i : Nat => a i != b i || a i == 0) hend hn
  rwa [Bool.or_eq_true, bne_iff_ne, beq_iff_eq] at hstop

/-- The bytes at which `strcmp` stops are equal exactly when the strings are. -/
theorem Spells.compare_iff {a b : Int → UInt8} (ha : Spells a s) (hb : Spells b t) :
    a (compareIndex a b) = b (compareIndex a b) ↔ s = t := by
  have hle : compareIndex a b ≤ t.length := compareIndex_le hb.nul hb.short
  have hlt : compareIndex a b < 4294967296 := Nat.lt_of_le_of_lt hle hb.short
  constructor
  · intro heq
    have hzero : a (compareIndex a b) = 0 :=
      (compareIndex_stop hb.nul hb.short).resolve_left fun hne => hne heq
    have hs : s.length = compareIndex a b := by
      have h₁ := arrayLength_le hzero hlt
      rw [ha.length] at h₁
      by_contra hne
      exact (compareIndex_pass hb.nul hb.short (by omega)).2 ha.nul
    have ht : t.length = compareIndex a b := by
      have h₁ := arrayLength_le (heq.symm.trans hzero) hlt
      rw [hb.length] at h₁
      omega
    apply List.ext_getElem (hs.trans ht.symm)
    intro i hi hi'
    have h₁ := ha.begins i hi
    have h₂ := hb.begins i hi'
    rw [List.getD_eq_getElem _ _ hi] at h₁
    rw [List.getD_eq_getElem _ _ hi'] at h₂
    rw [← h₁, ← h₂]
    exact (compareIndex_pass hb.nul hb.short (hs ▸ hi)).1
  · rintro rfl
    rcases Nat.lt_or_eq_of_le hle with hlt | heq
    · rw [ha.begins _ hlt, hb.begins _ hlt]
    · rw [heq, ha.nul, hb.nul]

theorem Begins.append_left {a : Int → UInt8} (h : Begins a (t ++ l)) : Begins a t := by
  intro i hi
  rw [h i (by rw [List.length_append]; omega), List.getD_append _ _ _ _ hi]

/-- A byte goes out of an array, and those behind it move up. -/
theorem Begins.eraseIdx {a b : Int → UInt8} (h : Begins a t) (hi : i < t.length)
    (hb : ∀ j : Nat, j + 1 < t.length → b j = if j < i then a j else a (j + 1)) :
    Begins b (t.eraseIdx i) := by
  intro j hj
  rw [List.length_eraseIdx_of_lt hi] at hj
  rw [hb j (by omega), List.getD_eq_getElem?_getD, List.getElem?_eraseIdx]
  split
  · rw [h j (by omega), List.getD_eq_getElem?_getD]
  · have hnext := h (j + 1) (by omega)
    rw [List.getD_eq_getElem?_getD] at hnext
    exact hnext

/-- A byte goes into an array, and those behind it make room. -/
theorem Begins.insertIdx {a b : Int → UInt8} (h : Begins a t) (hi : i ≤ t.length)
    (hb : ∀ j : Nat, j ≤ t.length →
      b j = if j < i then a j else if j = i then c else a (j - 1 : Nat)) :
    Begins b (t.insertIdx i c) := by
  intro j hj
  rw [List.length_insertIdx_of_le_length hi] at hj
  rw [hb j (by omega), List.getD_eq_getElem?_getD, List.getElem?_insertIdx]
  split
  · rw [h j (by omega), List.getD_eq_getElem?_getD]
  · split
    · rw [if_pos (by omega)]
      rfl
    · rw [h (j - 1) (by omega), List.getD_eq_getElem?_getD]

end CString
