import Mathlib.Data.List.InsertIdx

namespace LineEditor
set_option autoImplicit true

/-- A text of at most `cap` characters with a cursor. -/
structure Editor (α : Type) (cap : Nat) where
  text : List α
  cursor : Nat
  cursor_le : cursor ≤ text.length
  length_le : text.length ≤ cap

inductive Key (α : Type) where
  | char (c : α)
  | backspace
  | left
  | right

section
variable {α : Type} {cap : Nat}

def Editor.empty : Editor α cap := ⟨[], 0, Nat.le_refl 0, Nat.zero_le cap⟩

/-- A full text takes no more. -/
def Editor.insert (e : Editor α cap) (c : α) : Editor α cap :=
  if h : e.text.length < cap then
    { text := e.text.insertIdx e.cursor c
      cursor := e.cursor + 1
      cursor_le := by
        rw [List.length_insertIdx_of_le_length e.cursor_le]
        exact Nat.succ_le_succ e.cursor_le
      length_le := by
        rw [List.length_insertIdx_of_le_length e.cursor_le]
        exact h }
  else e

/-- The character before the cursor goes. -/
def Editor.backspace (e : Editor α cap) : Editor α cap :=
  if h : 0 < e.cursor then
    have hle := e.cursor_le
    have hcap := e.length_le
    have hlength : (e.text.eraseIdx (e.cursor - 1)).length = e.text.length - 1 :=
      List.length_eraseIdx_of_lt (by omega)
    { text := e.text.eraseIdx (e.cursor - 1)
      cursor := e.cursor - 1
      cursor_le := by omega
      length_le := by omega }
  else e

def Editor.left (e : Editor α cap) : Editor α cap :=
  { e with cursor := e.cursor - 1, cursor_le := Nat.le_trans (Nat.sub_le _ _) e.cursor_le }

def Editor.right (e : Editor α cap) : Editor α cap :=
  if h : e.cursor < e.text.length then { e with cursor := e.cursor + 1, cursor_le := h } else e

def Editor.key (e : Editor α cap) : Key α → Editor α cap
  | .char c => e.insert c
  | .backspace => e.backspace
  | .left => e.left
  | .right => e.right

/-- The text after some keys, from an empty one. -/
def Editor.typed (keys : List (Key α)) : Editor α cap := keys.foldl Editor.key .empty

/-- A text, as much of it as fits, with the cursor behind it. -/
def Editor.ofText (t : List α) : Editor α cap where
  text := t.take cap
  cursor := (t.take cap).length
  cursor_le := Nat.le_refl _
  length_le := List.length_take_le _ _

theorem Editor.ofText_text (h : t.length ≤ cap) : (Editor.ofText t : Editor α cap).text = t :=
  List.take_of_length_le h

theorem Editor.ofText_cursor (h : t.length ≤ cap) :
    (Editor.ofText t : Editor α cap).cursor = t.length :=
  congrArg List.length (List.take_of_length_le h)

/-- The cursor goes behind the text. -/
def Editor.toEnd (e : Editor α cap) : Editor α cap :=
  { e with cursor := e.text.length, cursor_le := Nat.le_refl _ }

/-- One character before the end, or at it, that is a step to the right. -/
theorem Editor.toEnd_eq_right_iff (e : Editor α cap) :
    e.toEnd.cursor = e.right.cursor ↔ e.text.length ≤ e.cursor + 1 := by
  have hle := e.cursor_le
  rw [toEnd, right]
  split
  · change e.text.length = e.cursor + 1 ↔ _
    omega
  · change e.text.length = e.cursor ↔ _
    omega

theorem Editor.toEnd_eq_right {e : Editor α cap} (h : e.text.length ≤ e.cursor + 1) :
    e.toEnd = e.right := by
  have hcursor := e.toEnd_eq_right_iff.2 h
  have htext : e.toEnd.text = e.right.text := by
    rw [right]
    split <;> rfl
  generalize e.toEnd = a at hcursor htext
  generalize e.right = b at hcursor htext
  cases a
  cases b
  dsimp only at hcursor htext
  subst hcursor htext
  rfl

/-- An editor that goes back to earlier texts: the index is that of the text it shows, the number
of them when it shows none. -/
structure Recall (α : Type) (cap : Nat) where
  editor : Editor α cap
  index : Nat

inductive RecallKey (α : Type) where
  | edit (key : Key α)
  | previous
  | next
  | ignored

/-- Behind the last text comes an empty one. -/
def Recall.key (texts : List (List α)) (s : Recall α cap) : RecallKey α → Recall α cap
  | .edit key => { s with editor := s.editor.key key }
  | .previous =>
    if 0 < s.index then ⟨.ofText (texts.getD (s.index - 1) []), s.index - 1⟩ else s
  | .next =>
    if s.index < texts.length then ⟨.ofText (texts.getD (s.index + 1) []), s.index + 1⟩ else s
  | .ignored => s

end

end LineEditor
