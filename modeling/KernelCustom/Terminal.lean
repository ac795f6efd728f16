import Mathlib.Logic.Function.Basic

namespace Terminal
set_option autoImplicit true

/-- A terminal with unboundedly many rows of some width. The rows below the cursor are blank. -/
structure Screen (width : Nat) (blank : α) where
  cell : Nat → Nat → α
  row : Nat
  col : Nat
  col_lt : col < width
  clean : ∀ r, row < r → ∀ c, cell r c = blank

section
variable {width : Nat} {blank : α}

def Screen.cleared (hw : 0 < width) : Screen width blank where
  cell _ _ := blank
  row := 0
  col := 0
  col_lt := hw
  clean _ _ _ := rfl

/-- A new row, which is blank. -/
def Screen.newline (t : Screen width blank) : Screen width blank where
  cell := t.cell
  row := t.row + 1
  col := 0
  col_lt := Nat.zero_lt_of_lt t.col_lt
  clean r hr := t.clean r (by omega)

/-- One to the left, never before column 0. -/
def Screen.back (t : Screen width blank) : Screen width blank :=
  { t with col := t.col - 1, col_lt := by have := t.col_lt; omega }

/-- A character at the cursor, without moving it. -/
def Screen.write (t : Screen width blank) (c : α) : Screen width blank :=
  { t with
    cell := Function.update t.cell t.row (Function.update (t.cell t.row) t.col c)
    clean := fun r hr x => by
      rw [Function.update_of_ne (by omega)]
      exact t.clean r hr x }

/-- A character, which breaks the row behind the last column. -/
def Screen.put (t : Screen width blank) (c : α) : Screen width blank :=
  if h : t.col + 1 < width then { t.write c with col := t.col + 1, col_lt := h }
  else (t.write c).newline

/-- The first row that a window of some height on the end of the terminal shows. -/
def Screen.top (height : Nat) (t : Screen width blank) : Nat := t.row + 1 - height

def Screen.window (height : Nat) (t : Screen width blank) (y x : Nat) : α :=
  t.cell (t.top height + y) x

/-- The row of the window in which the cursor is. -/
def Screen.cursorRow (height : Nat) (t : Screen width blank) : Nat := t.row - t.top height

theorem Screen.cursorRow_lt (t : Screen width blank) (hh : 0 < height) :
    t.cursorRow height < height := by
  simp only [Screen.cursorRow, Screen.top]
  omega

theorem Screen.top_add_cursorRow (t : Screen width blank) (hh : 0 < height) :
    t.top height + t.cursorRow height = t.row := by
  simp only [Screen.cursorRow, Screen.top]
  omega

theorem Screen.window_write (t : Screen width blank) (hh : 0 < height) (c : α) (y x : Nat) :
    (t.write c).window height y x =
      if y = t.cursorRow height ∧ x = t.col then c else t.window height y x := by
  have hrow := t.top_add_cursorRow hh
  change Function.update t.cell t.row (Function.update (t.cell t.row) t.col c)
    (t.top height + y) x = _
  by_cases hy : y = t.cursorRow height
  · rw [hy, hrow, Function.update_self]
    by_cases hx : x = t.col
    · rw [hx, Function.update_self, if_pos ⟨rfl, rfl⟩]
    · rw [Function.update_of_ne hx, if_neg fun h => hx h.2, Screen.window, hrow]
  · rw [Function.update_of_ne (by omega), if_neg fun h => hy h.1, Screen.window]

/-- While the cursor is above the last row, the window stays where it is. -/
theorem Screen.window_newline_of_room (t : Screen width blank)
    (hroom : t.cursorRow height + 1 < height) :
    t.newline.window height = t.window height ∧
      t.newline.cursorRow height = t.cursorRow height + 1 := by
  have htop : t.newline.top height = t.top height := by
    simp only [Screen.cursorRow, Screen.top, Screen.newline] at hroom ⊢
    omega
  constructor
  · funext y x
    rw [Screen.window, htop]
    rfl
  · simp only [Screen.cursorRow, htop]
    simp only [Screen.top, Screen.newline]
    omega

/-- In the last row it moves down by one. -/
theorem Screen.window_newline_of_last (t : Screen width blank)
    (hlast : t.cursorRow height + 1 = height) (y x : Nat) :
    (t.newline.window height y x =
      if y + 1 < height then t.window height (y + 1) x else blank) ∧
      t.newline.cursorRow height = t.cursorRow height := by
  have htop : t.newline.top height = t.top height + 1 := by
    simp only [Screen.cursorRow, Screen.top, Screen.newline] at hlast ⊢
    omega
  constructor
  · simp only [Screen.window, htop]
    split
    · rw [Nat.add_assoc, Nat.add_comm 1]
      rfl
    · refine t.clean _ ?_ x
      simp only [Screen.cursorRow, Screen.top] at hlast ⊢
      omega
  · simp only [Screen.cursorRow, htop]
    simp only [Screen.top, Screen.newline]
    omega

/-- A character that is put on the terminal can be seen. -/
theorem Screen.exists_window_put (t : Screen width blank) (hh : 1 < height) (a : α) :
    ∃ y x, y < height ∧ x < width ∧ (t.put a).window height y x = a := by
  have hrow := t.cursorRow_lt (by omega : 0 < height)
  have hcell : (t.write a).window height (t.cursorRow height) t.col = a := by
    rw [t.window_write (by omega), if_pos ⟨rfl, rfl⟩]
  rw [Screen.put]
  split
  · exact ⟨t.cursorRow height, t.col, hrow, t.col_lt, hcell⟩
  have hcursor : (t.write a).cursorRow height = t.cursorRow height := rfl
  by_cases hroom : t.cursorRow height + 1 < height
  · obtain ⟨hwindow, -⟩ := (t.write a).window_newline_of_room hroom
    refine ⟨t.cursorRow height, t.col, hrow, t.col_lt, ?_⟩
    rw [hwindow]
    exact hcell
  · have hlast : (t.write a).cursorRow height + 1 = height := by omega
    obtain ⟨hwindow, -⟩ := (t.write a).window_newline_of_last hlast (t.cursorRow height - 1) t.col
    have hup : t.cursorRow height - 1 + 1 = t.cursorRow height := by omega
    refine ⟨t.cursorRow height - 1, t.col, by omega, t.col_lt, ?_⟩
    rw [hwindow, hup, if_pos hrow]
    exact hcell

end

end Terminal
