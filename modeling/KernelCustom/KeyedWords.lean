import Mathlib.Data.List.Basic

namespace KeyedWords
set_option autoImplicit true

section
variable {α : Type} [DecidableEq α] {sep : α} {key : List α}

/-- The first place of a key in a text: what stands in front of it and what follows it. -/
def findKey (key : List α) : List α → Option (List α × List α)
  | [] => none
  | c :: l =>
    if key.isPrefixOf (c :: l) then some ([], (c :: l).drop key.length)
    else (findKey key l).map fun p => (c :: p.1, p.2)

/-- The first word that begins with a key, without the key. -/
def keyedWord (sep : α) (key l : List α) : Option (List α) :=
  ((l.splitOn sep).find? key.isPrefixOf).map (·.drop key.length)

/-- What stands up to the next separator. -/
def upToSep (sep : α) (l : List α) : List α := l.takeWhile (· ≠ sep)

theorem findKey_split (h : findKey key l = some (a, b)) : l = a ++ (key ++ b) := by
  induction l generalizing a with
  | nil => cases h
  | cons c l ih =>
    rw [findKey] at h
    split at h
    · next hkey =>
      cases h
      obtain ⟨rest, hrest⟩ := List.isPrefixOf_iff_prefix.1 hkey
      rw [← hrest, List.drop_left, List.nil_append]
    · obtain ⟨⟨a', b'⟩, hfound, heq⟩ := Option.map_eq_some_iff.1 h
      cases heq
      rw [List.cons_append, ← ih hfound]

/-- No place of the key comes in front of the first one. -/
theorem findKey_first (hkey : key ≠ []) (x y : List α) :
    ∃ a b, findKey key (x ++ (key ++ y)) = some (a, b) ∧ a.length ≤ x.length := by
  induction x with
  | nil =>
    obtain ⟨c, rest, hcons⟩ := List.exists_cons_of_ne_nil (List.append_ne_nil_of_left_ne_nil hkey y)
    refine ⟨[], (c :: rest).drop key.length, ?_, Nat.le_refl _⟩
    rw [List.nil_append, hcons, findKey, if_pos]
    exact List.isPrefixOf_iff_prefix.2 ⟨y, hcons⟩
  | cons c x ih =>
    obtain ⟨a, b, hfound, hle⟩ := ih
    rw [List.cons_append, findKey]
    split
    · exact ⟨[], _, rfl, Nat.zero_le _⟩
    · exact ⟨c :: a, b, by rw [hfound]; rfl, Nat.succ_le_succ hle⟩

theorem upToSep_append (sep : α) (l : List α) : ∃ y, l = upToSep sep l ++ y :=
  ⟨l.dropWhile (· ≠ sep), List.takeWhile_append_dropWhile.symm⟩

/-- The first word of a text is what stands up to the first separator. -/
theorem splitOn_eq_cons (sep : α) (l : List α) :
    ∃ rest, l.splitOn sep = upToSep sep l :: rest ∧ ∀ w ∈ rest, ∃ x y, l = x ++ (w ++ y) := by
  induction l with
  | nil => exact ⟨[], rfl, nofun⟩
  | cons c l ih =>
    obtain ⟨rest, hsplit, hrest⟩ := ih
    rw [List.splitOn_cons_eq_if_modifyHead, hsplit]
    by_cases hc : c = sep
    · have hnil : upToSep sep (c :: l) = [] := List.takeWhile_cons_of_neg (by simpa using hc)
      rw [if_pos (beq_iff_eq.2 hc), hnil]
      refine ⟨_, rfl, fun w hw => ?_⟩
      rcases List.mem_cons.1 hw with rfl | hw
      · obtain ⟨y, hy⟩ := upToSep_append sep l
        exact ⟨[c], y, congrArg (c :: ·) hy⟩
      · obtain ⟨x, y, heq⟩ := hrest w hw
        exact ⟨c :: x, y, by rw [List.cons_append, ← heq]⟩
    · have hcons : upToSep sep (c :: l) = c :: upToSep sep l :=
        List.takeWhile_cons_of_pos (by simpa using hc)
      rw [if_neg (by simpa using hc), hcons]
      refine ⟨rest, rfl, fun w hw => ?_⟩
      obtain ⟨x, y, heq⟩ := hrest w hw
      exact ⟨c :: x, y, by rw [List.cons_append, ← heq]⟩

/-- A word of a text is a part of it. -/
theorem mem_splitOn {l : List α} (h : w ∈ l.splitOn sep) : ∃ x y, l = x ++ (w ++ y) := by
  obtain ⟨rest, hsplit, hrest⟩ := splitOn_eq_cons sep l
  rw [hsplit] at h
  rcases List.mem_cons.1 h with rfl | h
  · obtain ⟨y, hy⟩ := upToSep_append sep l
    exact ⟨[], y, hy⟩
  · exact hrest w h

/-- Without the key in a text no word begins with it. -/
theorem keyedWord_of_findKey_none (hkey : key ≠ []) (h : findKey key l = none) (sep : α) :
    keyedWord sep key l = none := by
  rw [keyedWord, Option.map_eq_none_iff, List.find?_eq_none]
  intro w hw hpre
  obtain ⟨x, y, rfl⟩ := mem_splitOn hw
  obtain ⟨z, rfl⟩ := List.isPrefixOf_iff_prefix.1 hpre
  obtain ⟨a, b, hfound, -⟩ := findKey_first hkey x (z ++ y)
  rw [← List.append_assoc key, h] at hfound
  cases hfound

/-- When the first place of the key is the start of a word, that word is the first one that begins
with the key. -/
theorem keyedWord_of_findKey (hkey : key ≠ []) (hsep : sep ∉ key)
    (h : findKey key l = some (a, b)) (hstart : a = [] ∨ a.getLast? = some sep) :
    keyedWord sep key l = some (upToSep sep b) := by
  have hword : upToSep sep (key ++ b) = key ++ upToSep sep b := by
    apply List.takeWhile_append_of_pos
    intro c hc
    exact decide_eq_true fun heq => hsep (heq ▸ hc)
  obtain ⟨rest, hsplit, -⟩ := splitOn_eq_cons sep (key ++ b)
  rw [hword] at hsplit
  have hfind : ((key ++ b).splitOn sep).find? key.isPrefixOf = some (key ++ upToSep sep b) := by
    rw [hsplit]
    exact List.find?_cons_of_pos (List.isPrefixOf_iff_prefix.2 (List.prefix_append ..))
  have hl := findKey_split h
  rw [keyedWord]
  rcases hstart with rfl | hlast
  · rw [hl, List.nil_append, hfind, Option.map_some, List.drop_left]
  · obtain ⟨a', rfl⟩ := List.getLast?_eq_some_iff.1 hlast
    rw [List.append_assoc, List.singleton_append] at hl
    -- a word in front of the place would hold an earlier one
    have hnone : (a'.splitOn sep).find? key.isPrefixOf = none := by
      rw [List.find?_eq_none]
      intro w hw hpre
      obtain ⟨x, y, rfl⟩ := mem_splitOn hw
      obtain ⟨z, rfl⟩ := List.isPrefixOf_iff_prefix.1 hpre
      obtain ⟨a₀, b₀, hfound, hle⟩ := findKey_first hkey x (z ++ (y ++ sep :: (key ++ b)))
      have heq : x ++ (key ++ (z ++ (y ++ sep :: (key ++ b)))) = l := by
        rw [hl]
        simp only [List.append_assoc]
      rw [heq, h] at hfound
      cases hfound
      simp only [List.length_append, List.length_cons, List.length_nil] at hle
      omega
    rw [hl, List.splitOn_append_cons_self, List.find?_append, hnone, Option.none_or, hfind,
      Option.map_some, List.drop_left]

end

end KeyedWords
