import Mathlib.Tactic.Common

namespace EarlyExit
set_option autoImplicit true

/-- A loop over a list that carries a state and may leave at any element. -/
def scan (visit : α → σ → σ × Bool) : List α → σ → σ × Bool
  | [], s => (s, false)
  | a :: l, s => if (visit a s).2 then visit a s else scan visit l (visit a s).1

theorem scan_append (visit : α → σ → σ × Bool) (l l' : List α) (s : σ) :
    scan visit (l ++ l') s =
      if (scan visit l s).2 then scan visit l s else scan visit l' (scan visit l s).1 := by
  induction l generalizing s with
  | nil => rfl
  | cons a l ih =>
    rw [List.cons_append, scan, scan]
    by_cases h : (visit a s).2 = true
    · rw [if_pos h, if_pos h, if_pos h]
    · rw [if_neg h, if_neg h, ih]

/-- A loop that leaves at the first element of a kind finds it. -/
theorem scan_find (p : α → Bool) (f : α → σ) (l : List α) (s : σ) :
    (scan (fun a s => if p a then (f a, true) else (s, false)) l s).1 =
      ((l.find? p).map f).getD s := by
  induction l with
  | nil => rfl
  | cons a l ih =>
    rw [scan, List.find?_cons]
    cases p a with
    | true => rfl
    | false => exact ih

/-- A loop that never leaves folds the list. -/
theorem scan_foldl (f : σ → α → σ) (l : List α) (s : σ) :
    scan (fun a s => (f s a, false)) l s = (l.foldl f s, false) := by
  induction l generalizing s with
  | nil => rfl
  | cons a l ih => exact ih (f s a)

end EarlyExit
