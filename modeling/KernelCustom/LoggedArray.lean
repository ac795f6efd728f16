import KernelCustom.CString

namespace LoggedArray
open CString
set_option autoImplicit true

/-- An array with the indices at which it has been read or written. -/
structure Tracked where
  bytes : Int → UInt8
  accesses : List Int

def Tracked.store (b : Tracked) (i : Int) (c : UInt8) : Tracked :=
  ⟨Function.update b.bytes i c, b.accesses ++ [i]⟩

/-- `b[i] = b[j]`. -/
def Tracked.move (b : Tracked) (i j : Int) : Tracked :=
  ⟨Function.update b.bytes i (b.bytes j), b.accesses ++ [j, i]⟩

/-- Each cell from `i` on gets the byte behind it, for `n` cells. -/
def Tracked.shiftLeft : Nat → Int → Tracked → Tracked
  | 0, _, b => b
  | n + 1, i, b => shiftLeft n (i + 1) (b.move i (i + 1))

/-- Each cell from `i` down gets the byte before it, for `n` cells. -/
def Tracked.shiftRight : Nat → Int → Tracked → Tracked
  | 0, _, b => b
  | n + 1, i, b => shiftRight n (i - 1) (b.move i (i - 1))

/-- The indices `0 .. n`. -/
def indices (n : Nat) : List Int := (List.range (n + 1)).map fun i : Nat => (i : Int)

/-- `strcpy` of a string into the array. -/
def Tracked.copy (b : Tracked) (src : Int → UInt8) : Tracked :=
  ⟨strcpy b.bytes src, b.accesses ++ indices (arrayLength src)⟩

/-- `strlen` of the array. -/
def Tracked.measure (b : Tracked) : Tracked :=
  ⟨b.bytes, b.accesses ++ indices (arrayLength b.bytes)⟩

/-- No access has left the first `size` cells. -/
def Tracked.Within (b : Tracked) (size : Int) : Prop := ∀ i ∈ b.accesses, 0 ≤ i ∧ i < size

section
variable {b : Tracked} {size i j : Int} {n p : Nat}

theorem Tracked.Within.append (h : b.Within size) {l : List Int}
    (hl : ∀ i ∈ l, 0 ≤ i ∧ i < size) (bytes : Int → UInt8) :
    Tracked.Within ⟨bytes, b.accesses ++ l⟩ size := by
  intro i hi
  rcases List.mem_append.1 hi with hi | hi
  · exact h i hi
  · exact hl i hi

theorem Tracked.Within.store (h : b.Within size) (h₀ : 0 ≤ i) (hi : i < size) (c : UInt8) :
    (b.store i c).Within size := by
  refine h.append (fun j hj => ?_) _
  rw [List.mem_singleton.1 hj]
  exact ⟨h₀, hi⟩

theorem Tracked.Within.move (h : b.Within size) (hi : 0 ≤ i ∧ i < size) (hj : 0 ≤ j ∧ j < size) :
    (b.move i j).Within size := by
  refine h.append (fun k hk => ?_) _
  rcases List.mem_cons.1 hk with rfl | hk
  · exact hj
  · rw [List.mem_singleton.1 hk]
    exact hi

theorem Tracked.Within.shiftLeft (h : b.Within size) (h₀ : 0 ≤ i) (hi : i + n < size) :
    (b.shiftLeft n i).Within size := by
  induction n generalizing i b with
  | zero => exact h
  | succ n ih => exact ih (h.move ⟨h₀, by omega⟩ ⟨by omega, by omega⟩) (by omega) (by omega)

theorem Tracked.Within.shiftRight (h : b.Within size) (h₀ : 0 ≤ i - n) (hi : i < size) :
    (b.shiftRight n i).Within size := by
  induction n generalizing i b with
  | zero => exact h
  | succ n ih => exact ih (h.move ⟨by omega, hi⟩ ⟨by omega, by omega⟩) (by omega) (by omega)

theorem indices_within (hn : n < size) : ∀ i ∈ indices n, 0 ≤ i ∧ i < size := by
  intro i hi
  obtain ⟨k, hk, rfl⟩ := List.mem_map.1 hi
  have := List.mem_range.1 hk
  omega

/-- A string that fits is copied and measured inside the array. -/
theorem Tracked.Within.load (h : b.Within size) {src : Int → UInt8} (hs : Spells src t)
    (ht : t.length < size) : (b.copy src).measure.Within size := by
  have hfit : ∀ i ∈ indices t.length, 0 ≤ i ∧ i < size := indices_within ht
  refine Tracked.Within.append ?_ ?_ _
  · refine h.append ?_ _
    rwa [hs.length]
  · have hcopy : Spells (b.copy src).bytes t := hs.strcpy b.bytes
    rwa [hcopy.length]

theorem Tracked.shiftLeft_bytes (n : Nat) (i : Int) (b : Tracked) :
    (b.shiftLeft n i).bytes =
      fun j => if i ≤ j ∧ j < i + n then b.bytes (j + 1) else b.bytes j := by
  induction n generalizing i b with
  | zero =>
    funext j
    rw [if_neg (by omega)]
    rfl
  | succ n ih =>
    rw [Tracked.shiftLeft, ih]
    funext j
    simp only [Tracked.move, Function.update_apply]
    by_cases hj : j = i
    · rw [if_neg (by omega), if_pos hj, if_pos (by omega), hj]
    by_cases hin : i + 1 ≤ j ∧ j < i + 1 + n
    · rw [if_pos hin, if_neg (by omega), if_pos (by omega)]
    · rw [if_neg hin, if_neg hj, if_neg (by omega)]

theorem Tracked.shiftRight_bytes (n : Nat) (i : Int) (b : Tracked) :
    (b.shiftRight n i).bytes =
      fun j => if i - n < j ∧ j ≤ i then b.bytes (j - 1) else b.bytes j := by
  induction n generalizing i b with
  | zero =>
    funext j
    rw [if_neg (by omega)]
    rfl
  | succ n ih =>
    rw [Tracked.shiftRight, ih]
    funext j
    simp only [Tracked.move, Function.update_apply]
    by_cases hj : j = i
    · rw [if_neg (by omega), if_pos hj, if_pos (by omega), hj]
    by_cases hin : i - 1 - n < j ∧ j ≤ i - 1
    · rw [if_pos hin, if_neg (by omega), if_pos (by omega)]
    · rw [if_neg hin, if_neg hj, if_neg (by omega)]

/-- Closing the gap of a byte takes it out of the text. -/
theorem Tracked.begins_shiftLeft (h : Begins b.bytes t) (hp : p < t.length) :
    Begins (b.shiftLeft (t.length - 1 - p) p).bytes (t.eraseIdx p) := by
  refine h.eraseIdx hp fun j hj => ?_
  rw [Tracked.shiftLeft_bytes]
  dsimp only
  by_cases hlt : j < p
  · rw [if_neg (by omega), if_pos hlt]
  · rw [if_pos (by omega), if_neg hlt]

/-- Opening a gap and filling it puts a byte into the text. -/
theorem Tracked.begins_shiftRight (h : Begins b.bytes t) (hp : p ≤ t.length) (c : UInt8) :
    Begins ((b.shiftRight (t.length - p) t.length).store p c).bytes (t.insertIdx p c) := by
  refine h.insertIdx hp fun j hj => ?_
  simp only [Tracked.store, Tracked.shiftRight_bytes, Function.update_apply]
  by_cases hat : j = p
  · rw [if_pos (by omega), if_neg (by omega), if_pos hat]
  rw [if_neg (by omega)]
  by_cases hlt : j < p
  · rw [if_neg (by omega), if_pos hlt]
  · rw [if_pos (by omega), if_neg hlt, if_neg hat, Int.natCast_sub (by omega)]
    rfl

end

end LoggedArray
