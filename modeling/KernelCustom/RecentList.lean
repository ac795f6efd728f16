import Mathlib.Data.List.DropRight

namespace RecentList
set_option autoImplicit true

section
variable {α : Type} [DecidableEq α]

/-- An element joins a list unless it is refused or repeats the last one. -/
def keep (p : α → Bool) (l : List α) (x : α) : List α :=
  if p x = true ∧ l.getLast? ≠ some x then l ++ [x] else l

/-- What is left of a sequence without the refused elements and the repetitions. -/
def kept (p : α → Bool) (xs : List α) : List α := xs.foldl (keep p) []

/-- A list with room for `cap` elements takes one more; a full one loses its first. -/
def push (cap : Nat) (l : List α) (x : α) : List α :=
  if l.length < cap then l ++ [x] else l.tail ++ [x]

/-- `keep` for a list with room for `cap` elements. -/
def keepRecent (cap : Nat) (p : α → Bool) (l : List α) (x : α) : List α :=
  if p x = true ∧ l.getLast? ≠ some x then push cap l x else l

theorem keepRecent_of_new {l : List α} (hp : p x = true) (hx : l.getLast? ≠ some x) (cap : Nat) :
    keepRecent cap p l x = push cap l x := if_pos ⟨hp, hx⟩

theorem keepRecent_of_repeat {l : List α} (hx : l.getLast? = some x) (cap : Nat)
    (p : α → Bool) : keepRecent cap p l x = l := if_neg fun h => h.2 hx

theorem keepRecent_of_refused {p : α → Bool} (hp : p x = false) (cap : Nat) (l : List α) :
    keepRecent cap p l x = l := if_neg fun h => Bool.false_ne_true (hp.symm.trans h.1)

omit [DecidableEq α] in
theorem getLast?_rtake (h : 0 < cap) (l : List α) : (l.rtake cap).getLast? = l.getLast? := by
  cases hl : l with
  | nil => rw [List.rtake_nil]
  | cons a l' =>
    rw [List.rtake, List.getLast?_drop, if_neg]
    rw [List.length_cons]
    omega

omit [DecidableEq α] in
theorem push_rtake (h : 0 < cap) (l : List α) (x : α) :
    push cap (l.rtake cap) x = (l ++ [x]).rtake cap := by
  obtain ⟨n, rfl⟩ : ∃ n, cap = n + 1 := ⟨cap - 1, by omega⟩
  rw [push, List.rtake_concat_succ, List.rtake, List.rtake, List.length_drop]
  split
  · have hall : l.length - (n + 1) = 0 ∧ l.length - n = 0 := by omega
    rw [hall.1, hall.2]
  · rw [List.tail_drop]
    congr 2
    omega

/-- The short list is always the end of the long one. -/
theorem foldl_keepRecent (h : 0 < cap) (p : α → Bool) (l xs : List α) :
    xs.foldl (keepRecent cap p) (l.rtake cap) = (xs.foldl (keep p) l).rtake cap := by
  induction xs generalizing l with
  | nil => rfl
  | cons x xs ih =>
    rw [List.foldl_cons, List.foldl_cons, ← ih, keepRecent, keep, getLast?_rtake h]
    split
    · rw [push_rtake h]
    · rfl

theorem keepRecent_eq_kept (h : 0 < cap) (p : α → Bool) (xs : List α) :
    xs.foldl (keepRecent cap p) [] = (kept p xs).rtake cap := by
  rw [kept, ← foldl_keepRecent h, List.rtake_nil]

omit [DecidableEq α] in
theorem length_push_le {l : List α} (h : l.length ≤ cap) (hcap : 0 < cap) (x : α) :
    (push cap l x).length ≤ cap := by
  rw [push]
  split
  · rw [List.length_append]
    exact ‹_›
  · rw [List.length_append, List.length_tail, List.length_singleton]
    omega

theorem length_foldl_keepRecent_le {l : List α} (h : l.length ≤ cap) (hcap : 0 < cap)
    (p : α → Bool) (xs : List α) : (xs.foldl (keepRecent cap p) l).length ≤ cap := by
  induction xs generalizing l with
  | nil => exact h
  | cons x xs ih =>
    refine ih ?_
    rw [keepRecent]
    split
    · exact length_push_le h hcap x
    · exact h

end

end RecentList
