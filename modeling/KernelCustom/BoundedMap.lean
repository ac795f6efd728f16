import Mathlib.Data.List.Nodup

namespace BoundedMap
set_option autoImplicit true

section
variable {κ β : Type}

/-- The keys of a map given as a list of its entries. -/
def keys (m : List (κ × β)) : List κ := m.map Prod.fst

theorem getElem_key_inj {m : List (κ × β)} (h : (keys m).Nodup) (hi : i < m.length)
    (hj : j < m.length) (hk : m[i].1 = m[j].1) : i = j := by
  have hlength : (keys m).length = m.length := List.length_map _
  have hkeys : (keys m).get ⟨i, hlength ▸ hi⟩ = (keys m).get ⟨j, hlength ▸ hj⟩ := by
    simpa only [keys, List.get_eq_getElem, List.getElem_map] using hk
  exact h.getElem_inj_iff.1 hkeys

section
variable [DecidableEq κ]

/-- The value of a key is overwritten in place; a new key goes behind the others if there is
room for it. -/
def put (cap : Nat) (k : κ) (v : β) (m : List (κ × β)) : List (κ × β) :=
  if k ∈ keys m then m.map fun e => if e.1 = k then (k, v) else e
  else if m.length < cap then m ++ [(k, v)] else m

theorem put_of_mem {m : List (κ × β)} (h : k ∈ keys m) (cap : Nat) (v : β) :
    put cap k v m = m.map fun e => if e.1 = k then (k, v) else e := if_pos h

theorem put_of_room {m : List (κ × β)} (h : k ∉ keys m) (hroom : m.length < cap) (v : β) :
    put cap k v m = m ++ [(k, v)] := by
  rw [put, if_neg h, if_pos hroom]

theorem keys_overwrite (m : List (κ × β)) (k : κ) (v : β) :
    keys (m.map fun e => if e.1 = k then (k, v) else e) = keys m := by
  rw [keys, keys, List.map_map]
  refine List.map_congr_left fun e _ => ?_
  change (if e.1 = k then (k, v) else e).1 = e.1
  split
  · next he => exact he.symm
  · rfl

/-- Where the keys are distinct, an overwritten key changes one entry. -/
theorem getElem_overwrite {m : List (κ × β)} (h : (keys m).Nodup) (hi : i < m.length)
    (hk : m[i].1 = k) (v : β) (hj : j < (m.map fun e => if e.1 = k then (k, v) else e).length)
    (hj' : j < m.length) :
    (m.map fun e => if e.1 = k then (k, v) else e)[j] = if j = i then (k, v) else m[j] := by
  rw [List.getElem_map]
  by_cases hji : j = i
  · subst hji
    rw [if_pos hk, if_pos rfl]
  · rw [if_neg, if_neg hji]
    exact fun hkey => hji (getElem_key_inj h hj' hi (hkey.trans hk.symm))

/-- A full map takes no new key. -/
theorem put_of_full {m : List (κ × β)} (h : k ∉ keys m) (hfull : cap ≤ m.length) (v : β) :
    put cap k v m = m := by
  rw [put, if_neg h, if_neg (Nat.not_lt.2 hfull)]

theorem nodup_keys_put {m : List (κ × β)} (h : (keys m).Nodup) (cap : Nat) (k : κ) (v : β) :
    (keys (put cap k v m)).Nodup := by
  rw [put]
  split
  · rwa [keys_overwrite]
  · next hk =>
    split
    · rw [keys, List.map_append]
      exact h.append (List.nodup_singleton k) (List.disjoint_singleton.2 hk)
    · exact h

theorem length_put_le {m : List (κ × β)} (h : m.length ≤ cap) (k : κ) (v : β) :
    (put cap k v m).length ≤ cap := by
  rw [put]
  split
  · rwa [List.length_map]
  · split
    · next hroom =>
      rw [List.length_append]
      exact hroom
    · exact h

end

section
variable [BEq κ] [LawfulBEq κ]

theorem lookup_eq_none {m : List (κ × β)} (h : k ∉ keys m) : m.lookup k = none := by
  rw [List.lookup_eq_none_iff]
  intro e he
  exact bne_iff_ne.2 fun hk => h (hk ▸ List.mem_map_of_mem he)

/-- Where the keys are distinct, the entry at an index is the one its key finds. -/
theorem lookup_getElem {m : List (κ × β)} (h : (keys m).Nodup) (hi : i < m.length) :
    m.lookup m[i].1 = some m[i].2 := by
  induction m generalizing i with
  | nil => cases hi
  | cons e m ih =>
    rw [keys, List.map_cons, List.nodup_cons] at h
    cases i with
    | zero => exact List.lookup_cons_self
    | succ i =>
      have hi' : i < m.length := Nat.lt_of_succ_lt_succ hi
      have hne : m[i].1 ≠ e.1 := by
        intro hk
        exact h.1 (hk ▸ List.mem_map_of_mem (List.getElem_mem hi'))
      rw [List.getElem_cons_succ, List.lookup_cons, beq_false_of_ne hne]
      exact ih h.2 hi'

variable [DecidableEq κ]

theorem lookup_overwrite_self {m : List (κ × β)} (h : k ∈ keys m) (v : β) :
    (m.map fun e => if e.1 = k then (k, v) else e).lookup k = some v := by
  induction m with
  | nil => cases h
  | cons e m ih =>
    rw [List.map_cons]
    by_cases he : e.1 = k
    · rw [if_pos he, List.lookup_cons_self]
    · rw [if_neg he, List.lookup_cons, beq_false_of_ne (Ne.symm he)]
      refine ih ?_
      rcases List.mem_cons.1 h with hk | hk
      · exact (he hk.symm).elim
      · exact hk

theorem lookup_overwrite_ne (m : List (κ × β)) (v : β) (hne : k' ≠ k) :
    (m.map fun e => if e.1 = k then (k, v) else e).lookup k' = m.lookup k' := by
  induction m with
  | nil => rfl
  | cons e m ih =>
    rw [List.map_cons, List.lookup_cons, List.lookup_cons, ih]
    by_cases he : e.1 = k
    · rw [if_pos he, he]
      change (match k' == k with | true => some v | false => _) = _
      rw [beq_false_of_ne hne]
    · rw [if_neg he]

/-- What a map that took a value has under a key. -/
theorem lookup_put {m : List (κ × β)} (h : k ∈ keys m ∨ m.length < cap) (v : β) (k' : κ) :
    (put cap k v m).lookup k' = if k' = k then some v else m.lookup k' := by
  by_cases hmem : k ∈ keys m
  · rw [put_of_mem hmem]
    split
    · next hk => rw [hk, lookup_overwrite_self hmem]
    · next hk => exact lookup_overwrite_ne m v hk
  · rw [put_of_room hmem (h.resolve_left hmem), List.lookup_append]
    split
    · next hk =>
      rw [hk, lookup_eq_none hmem, List.lookup_cons_self]
      rfl
    · next hk =>
      rw [List.lookup_cons, beq_false_of_ne hk, List.lookup_nil, Option.or_none]

end

end

end BoundedMap
