import Mathlib.Tactic.Common

namespace WordSplit
set_option autoImplicit true

section
variable {σ α : Type} (step : σ → α → σ) (sep : σ → α → Bool)

/-- The symbols of a text, each with whether it separates words where it stands. -/
def mark : σ → List α → List (α × Bool)
  | _, [] => []
  | s, a :: l => (a, sep s a) :: mark (step s a) l

/-- The words of a text: the non-empty pieces between separators. -/
def words (s : σ) (l : List α) : List (List α) :=
  (((mark step sep s l).splitOnP Prod.snd).filter fun piece => !piece.isEmpty).map (·.map Prod.fst)

/-- The first word, up to the first separator, and what follows it. -/
def cut : σ → List α → List α × List α
  | _, [] => ([], [])
  | s, a :: l => if sep s a then ([], a :: l) else (a :: (cut (step s a) l).1, (cut (step s a) l).2)

theorem cut_append (s : σ) (l : List α) : (cut step sep s l).1 ++ (cut step sep s l).2 = l := by
  induction l generalizing s with
  | nil => rfl
  | cons a l ih =>
    rw [cut]
    split
    · rfl
    · rw [List.cons_append, ih]

/-- What follows the first word starts with a separator. -/
theorem cut_rest (s : σ) (l : List α) :
    (cut step sep s l).2 = [] ∨ ∃ a l', (cut step sep s l).2 = a :: l' ∧
      sep ((cut step sep s l).1.foldl step s) a = true := by
  induction l generalizing s with
  | nil => exact .inl rfl
  | cons a l ih =>
    rw [cut]
    split
    · next h => exact .inr ⟨a, l, rfl, h⟩
    · exact ih (step s a)

theorem mark_append (s : σ) (l l' : List α) :
    mark step sep s (l ++ l') = mark step sep s l ++ mark step sep (l.foldl step s) l' := by
  induction l generalizing s with
  | nil => rfl
  | cons a l ih => rw [List.cons_append, mark, mark, ih, List.cons_append, List.foldl_cons]

theorem mark_fst (s : σ) (l : List α) : (mark step sep s l).map Prod.fst = l := by
  induction l generalizing s with
  | nil => rfl
  | cons a l ih => rw [mark, List.map_cons, ih]

theorem mark_cut (s : σ) (l : List α) :
    ∀ x ∈ mark step sep s (cut step sep s l).1, x.2 = false := by
  induction l generalizing s with
  | nil => exact nofun
  | cons a l ih =>
    rw [cut]
    split
    · exact nofun
    · next h =>
      intro x hx
      rcases List.mem_cons.1 hx with rfl | hx
      · exact Bool.eq_false_iff.2 h
      · exact ih (step s a) x hx

/-- A separator in front of a text adds no word. -/
theorem words_sep (h : sep s a = true) (l : List α) :
    words step sep s (a :: l) = words step sep (step s a) l := by
  rw [words, mark, List.splitOnP_cons_eq_if_modifyHead, if_pos h, List.filter_cons_of_neg]
  · rfl
  · simp

/-- A text is its first word and the words that follow. -/
theorem words_cut (s : σ) (l : List α) (hne : (cut step sep s l).1 ≠ []) :
    words step sep s l = (cut step sep s l).1 ::
      words step sep ((cut step sep s l).1.foldl step s) (cut step sep s l).2 := by
  have hrest := cut_rest step sep s l
  have hmark := mark_cut step sep s l
  have happ := cut_append step sep s l
  generalize (cut step sep s l).1 = w at *
  generalize (cut step sep s l).2 = rest at *
  subst happ
  have hpiece : ∀ pieces, (mark step sep s w :: pieces).filter (fun piece => !piece.isEmpty) =
      mark step sep s w :: pieces.filter fun piece => !piece.isEmpty := by
    intro pieces
    apply List.filter_cons_of_pos
    cases w with
    | nil => exact (hne rfl).elim
    | cons a w => rfl
  rw [words, mark_append]
  rcases hrest with rfl | ⟨a, l', rfl, hsep⟩
  · rw [mark, List.append_nil, List.splitOnP_eq_singleton hmark, hpiece, List.map_cons, mark_fst]
    rfl
  · rw [mark, List.splitOnP_append_cons_of_forall_mem hmark _ hsep, hpiece, List.map_cons,
      mark_fst, words_sep _ _ hsep]
    rfl

end

end WordSplit
