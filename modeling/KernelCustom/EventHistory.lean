import Mathlib.Data.List.Induction

namespace EventHistory
set_option autoImplicit true

section
variable {α : Type}

/-- An event of a history with one more event is that event or one of the history. -/
theorem concat_split {es pre post : List α} (h : es ++ [e] = pre ++ a :: post) :
    (es = pre ∧ e = a ∧ post = []) ∨ ∃ rest, post = rest ++ [e] ∧ es = pre ++ a :: rest := by
  cases post using List.reverseRecOn with
  | nil =>
    obtain ⟨hes, he⟩ := List.append_inj' h rfl
    exact .inl ⟨hes, List.singleton_inj.1 he, rfl⟩
  | append_singleton rest x =>
    rw [← List.cons_append, ← List.append_assoc] at h
    obtain ⟨hes, hx⟩ := List.append_inj' h rfl
    exact .inr ⟨rest, by rw [List.singleton_inj.1 hx], hes⟩

/-- What sets, clears and otherwise keeps a bit. -/
theorem latch_eq_true_iff [Decidable p] [Decidable q] (x : Bool) :
    (if p then true else if q then false else x) = true ↔ p ∨ ¬ q ∧ x = true := by
  by_cases hp : p
  · rw [if_pos hp]
    exact iff_of_true rfl (.inl hp)
  · rw [if_neg hp, or_iff_right hp]
    by_cases hq : q
    · rw [if_pos hq]
      exact iff_of_false Bool.false_ne_true fun h => h.1 hq
    · rw [if_neg hq, and_iff_right hq]

/-- An event has come, and the one that undoes it has not come since. -/
def Outstanding (a b : α) (es : List α) : Prop := ∃ pre post, es = pre ++ a :: post ∧ b ∉ post

theorem not_outstanding_nil (a b : α) : ¬ Outstanding a b [] := by
  rintro ⟨pre, post, heq, -⟩
  exact List.append_ne_nil_of_right_ne_nil pre (List.cons_ne_nil a post) heq.symm

theorem outstanding_concat (a b : α) (es : List α) (e : α) :
    Outstanding a b (es ++ [e]) ↔ e = a ∨ e ≠ b ∧ Outstanding a b es := by
  constructor
  · rintro ⟨pre, post, heq, hb⟩
    rcases concat_split heq with ⟨-, he, -⟩ | ⟨rest, rfl, hes⟩
    · exact .inl he
    · rw [List.mem_append, not_or, List.mem_singleton] at hb
      exact .inr ⟨Ne.symm hb.2, pre, rest, hes, hb.1⟩
  · rintro (rfl | ⟨hne, pre, post, rfl, hb⟩)
    · exact ⟨es, [], rfl, List.not_mem_nil⟩
    · refine ⟨pre, post ++ [e], by rw [List.append_assoc, List.cons_append], fun hmem => ?_⟩
      rcases List.mem_append.1 hmem with hmem | hmem
      · exact hb hmem
      · exact hne (List.mem_singleton.1 hmem).symm

/-- The last event of a history that is one of two. -/
def lastOf [DecidableEq α] (a b : α) (es : List α) : Option α :=
  (es.filter fun e => e = a ∨ e = b).getLast?

theorem lastOf_concat [DecidableEq α] (a b : α) (es : List α) (e : α) :
    lastOf a b (es ++ [e]) = if e = a ∨ e = b then some e else lastOf a b es := by
  rw [lastOf, List.filter_append]
  by_cases he : e = a ∨ e = b
  · rw [if_pos he, List.filter_cons_of_pos (by simpa using he)]
    exact List.getLast?_concat
  · rw [if_neg he, List.filter_cons_of_neg (by simpa using he)]
    exact congrArg List.getLast? (List.append_nil _)

/-- The event that counts as pressed is the last one: one more event decides it anew. -/
theorem lastOf_concat_eq_iff [DecidableEq α] (hne : a ≠ b) (es : List α) (e : α) :
    lastOf a b (es ++ [e]) = some a ↔ e = a ∨ e ≠ b ∧ lastOf a b es = some a := by
  rw [lastOf_concat]
  by_cases ha : e = a
  · rw [if_pos (.inl ha), ha]
    exact iff_of_true rfl (.inl rfl)
  · by_cases hb : e = b
    · rw [if_pos (.inr hb), hb, Option.some.injEq]
      refine iff_of_false (Ne.symm hne) ?_
      rintro (hba | ⟨hbb, -⟩)
      · exact hne hba.symm
      · exact hbb rfl
    · rw [if_neg (not_or.2 ⟨ha, hb⟩), or_iff_right ha, and_iff_right hb]

end

end EventHistory
