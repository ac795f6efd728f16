import Mathlib.Tactic.Common
import Mathlib.Data.List.Chain

namespace BlockTiling
set_option autoImplicit true

/-- A block of an arena: where it starts, how long it is, and whether it is free. -/
structure Block where
  addr : Nat
  size : Nat
  free : Bool
  deriving DecidableEq

/-- The blocks follow each other without gaps from `lo` to `hi`. -/
def Tiles (lo : Nat) : List Block → Nat → Prop
  | [], hi => lo = hi
  | b :: bs, hi => b.addr = lo ∧ Tiles (lo + b.size) bs hi

theorem tiles_append : Tiles lo (xs ++ ys) hi ↔ ∃ mid, Tiles lo xs mid ∧ Tiles mid ys hi := by
  induction xs generalizing lo with
  | nil => simp [Tiles]
  | cons x xs ih => simp [Tiles, ih, and_assoc]

theorem Tiles.le (h : Tiles lo bs hi) : lo ≤ hi := by
  induction bs generalizing lo with
  | nil => exact Nat.le_of_eq h
  | cons b bs ih => exact Nat.le_trans (Nat.le_add_right _ _) (ih h.2)

theorem Tiles.bounds (h : Tiles lo bs hi) (hb : b ∈ bs) :
    lo ≤ b.addr ∧ b.addr + b.size ≤ hi := by
  induction bs generalizing lo with
  | nil => cases hb
  | cons c bs ih =>
    obtain ⟨hc, ht⟩ := h
    rcases List.mem_cons.1 hb with rfl | hb
    · exact ⟨hc.ge, by rw [hc]; exact ht.le⟩
    · have := ih ht hb
      omega

/-- Earlier blocks end before later ones start. -/
theorem Tiles.ordered (h : Tiles lo bs hi) :
    bs.Pairwise (fun a b => a.addr + a.size ≤ b.addr) := by
  induction bs generalizing lo with
  | nil => exact .nil
  | cons b bs ih =>
    refine .cons ?_ (ih h.2)
    intro c hc
    rw [h.1]
    exact (h.2.bounds hc).1

theorem Tiles.apart (h : Tiles lo bs hi) (hb : b ∈ bs) (hc : c ∈ bs) (hne : b ≠ c) :
    b.addr + b.size ≤ c.addr ∨ c.addr + c.size ≤ b.addr := by
  induction bs generalizing lo with
  | nil => cases hb
  | cons d bs ih =>
    have ho := List.pairwise_cons.1 h.ordered
    rcases List.mem_cons.1 hb with hbd | hbs <;> rcases List.mem_cons.1 hc with hcd | hcs
    · exact (hne (hbd.trans hcd.symm)).elim
    · subst hbd
      exact .inl (ho.1 c hcs)
    · subst hcd
      exact .inr (ho.1 b hbs)
    · exact ih h.2 hbs hcs

theorem Tiles.length_le (h : Tiles lo bs hi) (hm : ∀ b ∈ bs, n ≤ b.size) :
    lo + n * bs.length ≤ hi := by
  induction bs generalizing lo with
  | nil => simpa [Tiles] using Nat.le_of_eq h
  | cons b bs ih =>
    have hb := hm b (by simp)
    have ht := ih h.2 fun c hc => hm c (by simp [hc])
    rw [List.length_cons, Nat.mul_succ]
    omega

/-- A block joins a free right neighbour. -/
def absorbNext (b : Block) : List Block → List Block
  | [] => [b]
  | d :: ds => if d.free then { b with size := b.size + d.size } :: ds else b :: d :: ds

/-- The last block before a position joins what follows when it is free. -/
def absorbPrev : List Block → List Block → List Block
  | [], ms => ms
  | [q], ms => if q.free then absorbNext q ms else q :: ms
  | q :: r :: qs, ms => q :: absorbPrev (r :: qs) ms

/-- The part of a block that is handed out when `need` units are asked for. -/
def taken (need slack : Nat) (c : Block) : Block :=
  if c.size ≤ need + slack then { c with free := false } else ⟨c.addr, need, false⟩

/-- The part that stays free: nothing unless more than `slack` units are left. -/
def remainder (need slack : Nat) (c : Block) : List Block :=
  if c.size ≤ need + slack then [] else [⟨c.addr + need, c.size - need, true⟩]

/-- Freeing a block, joining it with the free blocks on either side. -/
def release (pre : List Block) (c : Block) (post : List Block) : List Block :=
  absorbPrev pre (absorbNext { c with free := true } post)

theorem absorbNext_cons (b : Block) (ds : List Block) :
    ∃ n rest, absorbNext b ds = { b with size := b.size + n } :: rest ∧ ∀ d ∈ rest, d ∈ ds := by
  cases ds with
  | nil => exact ⟨0, [], rfl, by simp⟩
  | cons d ds =>
    by_cases hf : d.free = true
    · exact ⟨d.size, ds, by simp [absorbNext, hf], by simp +contextual⟩
    · exact ⟨0, d :: ds, by simp [absorbNext, hf], by simp⟩

theorem absorbPrev_concat (pre ms : List Block) (q : Block) :
    absorbPrev (pre ++ [q]) ms = pre ++ (if q.free then absorbNext q ms else q :: ms) := by
  induction pre with
  | nil => rfl
  | cons p pre ih =>
    cases pre with
    | nil => rfl
    | cons r pre => simpa [absorbPrev] using ih

theorem tiles_absorbNext (h : Tiles lo (b :: ds) hi) : Tiles lo (absorbNext b ds) hi := by
  cases ds with
  | nil => exact h
  | cons d ds =>
    simp only [absorbNext]
    split
    · obtain ⟨hb, hd, ht⟩ := h
      exact ⟨hb, by rwa [← Nat.add_assoc]⟩
    · exact h

theorem tiles_absorbPrev (h : Tiles lo (pre ++ ms) hi) : Tiles lo (absorbPrev pre ms) hi := by
  rcases List.eq_nil_or_concat' pre with rfl | ⟨pre, q, rfl⟩
  · exact h
  · rw [absorbPrev_concat, tiles_append]
    rw [List.append_assoc, tiles_append] at h
    obtain ⟨mid, hp, hq⟩ := h
    refine ⟨mid, hp, ?_⟩
    split
    · exact tiles_absorbNext hq
    · exact hq

/-- No two neighbours are both free. -/
def Coalesced (bs : List Block) : Prop :=
  bs.IsChain (fun a b => ¬ (a.free = true ∧ b.free = true))

/-- A block list that tiles an arena in blocks of whole units, none too small, coalesced. -/
structure Arena (unit minSize lo hi : Nat) (bs : List Block) : Prop where
  tiles : Tiles lo bs hi
  whole : ∀ b ∈ bs, b.size % unit = 0
  least : ∀ b ∈ bs, minSize ≤ b.size
  coalesced : Coalesced bs

/-- The first block that is free and long enough. -/
structure FirstFit (need : Nat) (bs pre : List Block) (c : Block) (post : List Block) : Prop where
  split : bs = pre ++ c :: post
  before : ∀ b ∈ pre, ¬ (b.free = true ∧ need ≤ b.size)
  free : c.free = true
  enough : need ≤ c.size

theorem firstFit_or_none (need : Nat) (bs : List Block) :
    (∀ b ∈ bs, ¬ (b.free = true ∧ need ≤ b.size)) ∨ ∃ pre c post, FirstFit need bs pre c post := by
  induction bs with
  | nil => exact .inl (by simp)
  | cons b bs ih =>
    by_cases hb : b.free = true ∧ need ≤ b.size
    · exact .inr ⟨[], b, bs, rfl, by simp, hb.1, hb.2⟩
    · rcases ih with hn | ⟨pre, c, post, rfl, hp, hf, he⟩
      · refine .inl ?_
        intro d hd
        rcases List.mem_cons.1 hd with rfl | hd
        · exact hb
        · exact hn d hd
      · refine .inr ⟨b :: pre, c, post, rfl, ?_, hf, he⟩
        intro d hd
        rcases List.mem_cons.1 hd with rfl | hd
        · exact hb
        · exact hp d hd

@[simp] theorem taken_addr (need slack : Nat) (c : Block) : (taken need slack c).addr = c.addr := by
  unfold taken
  split <;> rfl

@[simp] theorem taken_free (need slack : Nat) (c : Block) :
    (taken need slack c).free = false := by
  unfold taken
  split <;> rfl

theorem taken_size (slack : Nat) (h : need ≤ c.size) : need ≤ (taken need slack c).size := by
  unfold taken
  split
  · exact h
  · exact Nat.le_refl _

theorem coalesced_cons :
    Coalesced (c :: post) ↔
      Coalesced post ∧ ∀ d ∈ post.head?, ¬ (c.free = true ∧ d.free = true) := by
  cases post with
  | nil => simp [Coalesced]
  | cons d post => simp [Coalesced, List.isChain_cons_cons, and_comm]

theorem coalesced_middle :
    Coalesced (pre ++ c :: post) ↔ Coalesced pre ∧ Coalesced post ∧
      (∀ q ∈ pre.getLast?, ¬ (q.free = true ∧ c.free = true)) ∧
      ∀ d ∈ post.head?, ¬ (c.free = true ∧ d.free = true) := by
  have hc : List.IsChain (fun a b : Block => ¬ (a.free = true ∧ b.free = true)) (c :: post) ↔
      Coalesced post ∧ ∀ d ∈ post.head?, ¬ (c.free = true ∧ d.free = true) := coalesced_cons
  simp only [Coalesced, List.isChain_append, hc, List.head?_cons, Option.mem_some_iff,
    forall_eq']
  tauto

theorem tiles_carve (h : Tiles lo (pre ++ c :: post) hi) (hn : need ≤ c.size) :
    Tiles lo (pre ++ taken need slack c :: (remainder need slack c ++ post)) hi := by
  rw [tiles_append] at h ⊢
  obtain ⟨mid, hp, hc, ht⟩ := h
  refine ⟨mid, hp, ?_⟩
  unfold taken remainder
  split
  · exact ⟨hc, ht⟩
  · refine ⟨hc, by rw [hc], ?_⟩
    have hend : mid + need + (c.size - need) = mid + c.size := by omega
    rwa [hend]

theorem coalesced_carve (h : Coalesced (pre ++ c :: post)) (hc : c.free = true) :
    Coalesced (pre ++ taken need slack c :: (remainder need slack c ++ post)) := by
  rw [coalesced_middle] at h
  obtain ⟨hp, hq, -, hr⟩ := h
  rw [coalesced_middle]
  refine ⟨hp, ?_, by simp, by simp⟩
  unfold remainder
  split
  · exact hq
  · exact coalesced_cons.2 ⟨hq, by simpa [hc] using hr⟩

/-- Handing out part of a free block keeps the arena in order. -/
theorem Arena.carve (h : Arena unit minSize lo hi (pre ++ c :: post)) (hc : c.free = true)
    (hn : need ≤ c.size) (hu : need % unit = 0) (hl : minSize ≤ need) (hs : minSize ≤ slack + 1) :
    Arena unit minSize lo hi
      (pre ++ taken need slack c :: (remainder need slack c ++ post)) := by
  have hcu := h.whole c (by simp)
  have hcl := h.least c (by simp)
  refine ⟨tiles_carve h.tiles hn, ?_, ?_, coalesced_carve h.coalesced hc⟩
  · intro b hb
    simp only [List.mem_append, List.mem_cons] at hb
    rcases hb with hb | rfl | hb | hb
    · exact h.whole b (by simp [hb])
    · unfold taken
      split
      · exact hcu
      · exact hu
    · unfold remainder at hb
      split at hb
      · cases hb
      · rw [List.mem_singleton] at hb
        subst hb
        exact (Nat.sub_mod_eq_zero_of_mod_eq (hcu.trans hu.symm))
    · exact h.whole b (by simp [hb])
  · intro b hb
    simp only [List.mem_append, List.mem_cons] at hb
    rcases hb with hb | rfl | hb | hb
    · exact h.least b (by simp [hb])
    · exact Nat.le_trans hl (taken_size slack hn)
    · unfold remainder at hb
      split at hb
      · cases hb
      · rw [List.mem_singleton] at hb
        subst hb
        simp only
        omega
    · exact h.least b (by simp [hb])

/-- What joining with the right neighbour leaves: one block, and then no free block. -/
theorem absorbNext_shape (b : Block) (h : Coalesced post) :
    ∃ n rest, absorbNext b post = { b with size := b.size + n } :: rest ∧ Coalesced rest ∧
      ∀ d ∈ rest.head?, d.free = false := by
  cases post with
  | nil => exact ⟨0, [], rfl, .nil, by simp⟩
  | cons d ds =>
    have hd := coalesced_cons.1 h
    by_cases hf : d.free = true
    · refine ⟨d.size, ds, by simp [absorbNext, hf], hd.1, ?_⟩
      intro e he
      have := hd.2 e he
      simpa [hf] using this
    · refine ⟨0, d :: ds, by simp [absorbNext, hf], h, ?_⟩
      simpa using hf

theorem absorbNext_of_free (b : Block) (h : d.free = true) :
    absorbNext b (d :: ds) = { b with size := b.size + d.size } :: ds := by
  simp only [absorbNext, h, if_true]

theorem absorbNext_of_head (b : Block) (h : ∀ d ∈ post.head?, d.free = false) :
    absorbNext b post = b :: post := by
  cases post with
  | nil => rfl
  | cons d ds =>
    have hd : d.free = false := h d rfl
    simp [absorbNext, hd]

theorem absorbPrev_of_last (ms : List Block) (h : ∀ q ∈ pre.getLast?, q.free = false) :
    absorbPrev pre ms = pre ++ ms := by
  rcases List.eq_nil_or_concat' pre with rfl | ⟨pre, q, rfl⟩
  · rfl
  · have hq : q.free = false := h q (by simp)
    simp [absorbPrev_concat, hq]

theorem mem_absorbNext_size (P : Nat → Prop) (hadd : ∀ m n, P m → P n → P (m + n))
    (hb : P b.size) (hp : ∀ d ∈ post, P d.size) : ∀ e ∈ absorbNext b post, P e.size := by
  intro e he
  cases post with
  | nil => simp only [absorbNext, List.mem_singleton] at he; subst he; exact hb
  | cons d ds =>
    have hd := hp d (by simp)
    simp only [absorbNext] at he
    split at he <;> simp only [List.mem_cons] at he
    · rcases he with rfl | he
      · exact hadd _ _ hb hd
      · exact hp e (by simp [he])
    · rcases he with rfl | rfl | he
      · exact hb
      · exact hd
      · exact hp e (by simp [he])

theorem mem_absorbPrev_size (P : Nat → Prop) (hadd : ∀ m n, P m → P n → P (m + n))
    (hp : ∀ d ∈ pre, P d.size) (hm : ∀ d ∈ ms, P d.size) :
    ∀ e ∈ absorbPrev pre ms, P e.size := by
  rcases List.eq_nil_or_concat' pre with rfl | ⟨pre, q, rfl⟩
  · exact hm
  · intro e he
    rw [absorbPrev_concat, List.mem_append] at he
    rcases he with he | he
    · exact hp e (by simp [he])
    · split at he
      · exact mem_absorbNext_size P hadd (hp q (by simp)) hm e he
      · rcases List.mem_cons.1 he with rfl | he
        · exact hp e (by simp)
        · exact hm e he

theorem coalesced_release (h : Coalesced (pre ++ c :: post)) : Coalesced (release pre c post) := by
  obtain ⟨hp, hq, -, -⟩ := coalesced_middle.1 h
  obtain ⟨n, rest, he, hr, hh⟩ := absorbNext_shape { c with free := true } hq
  have hm : Coalesced ({ c with size := c.size + n, free := true } :: rest) :=
    coalesced_cons.2 ⟨hr, by simpa using hh⟩
  rw [release, he]
  rcases List.eq_nil_or_concat' pre with rfl | ⟨pre, q, rfl⟩
  · exact hm
  · rw [absorbPrev_concat]
    obtain ⟨hp', -, hl, -⟩ := coalesced_middle.1 hp
    split
    · next hqf =>
      rw [absorbNext_of_free _ rfl]
      refine coalesced_middle.2 ⟨hp', hr, ?_, ?_⟩
      · simpa using hl
      · simpa [hqf] using hh
    · next hqf =>
      refine coalesced_middle.2 ⟨hp', hm, ?_, ?_⟩
      · simpa using hl
      · simpa using hqf

theorem tiles_release (h : Tiles lo (pre ++ c :: post) hi) : Tiles lo (release pre c post) hi := by
  apply tiles_absorbPrev
  rw [tiles_append] at h ⊢
  obtain ⟨mid, hp, hc⟩ := h
  exact ⟨mid, hp, tiles_absorbNext hc⟩

/-- Freeing a block keeps the arena in order, whatever its neighbours are. -/
theorem Arena.release (h : Arena unit minSize lo hi (pre ++ c :: post)) :
    Arena unit minSize lo hi (release pre c post) := by
  refine ⟨tiles_release h.tiles, ?_, ?_, coalesced_release h.coalesced⟩
  · have hadd : ∀ m n, m % unit = 0 → n % unit = 0 → (m + n) % unit = 0 := by
      intro m n hm hn
      exact Nat.mod_eq_zero_of_dvd
        ((Nat.dvd_add (Nat.dvd_of_mod_eq_zero hm) (Nat.dvd_of_mod_eq_zero hn)))
    apply mem_absorbPrev_size (fun s => s % unit = 0) hadd
    · exact fun d hd => h.whole d (by simp [hd])
    · exact mem_absorbNext_size _ hadd (h.whole c (by simp)) fun d hd => h.whole d (by simp [hd])
  · have hadd : ∀ m n, minSize ≤ m → minSize ≤ n → minSize ≤ m + n := by
      intro m n hm hn
      omega
    apply mem_absorbPrev_size (fun s => minSize ≤ s) hadd
    · exact fun d hd => h.least d (by simp [hd])
    · exact mem_absorbNext_size _ hadd (h.least c (by simp)) fun d hd => h.least d (by simp [hd])

/-- Freeing what was just handed out gives the old block list back. -/
theorem release_taken (h : Coalesced (pre ++ c :: post)) (hc : c.free = true)
    (hn : need ≤ c.size) :
    BlockTiling.release pre (taken need slack c) (remainder need slack c ++ post) =
      pre ++ c :: post := by
  obtain ⟨hp, hq, hl, hr⟩ := coalesced_middle.1 h
  have hl' : ∀ q ∈ pre.getLast?, q.free = false := by simpa [hc] using hl
  have hr' : ∀ d ∈ post.head?, d.free = false := by simpa [hc] using hr
  have he : absorbNext { taken need slack c with free := true } (remainder need slack c ++ post) =
      c :: post := by
    have hcc : { c with free := true } = c := by cases c; simp_all
    unfold taken remainder
    split
    · rw [List.nil_append, absorbNext_of_head _ hr']
      exact congrArg (· :: post) hcc
    · rw [List.singleton_append, absorbNext_of_free _ rfl]
      have hsum : need + (c.size - need) = c.size := by omega
      simp only [hsum]
      exact congrArg (· :: post) hcc
  rw [BlockTiling.release, he, absorbPrev_of_last _ hl']

/-- A coalesced arena without used blocks is one free block. -/
theorem Arena.eq_single (h : Arena unit minSize lo hi bs) (hlt : lo < hi)
    (hf : ∀ b ∈ bs, b.free = true) : bs = [⟨lo, hi - lo, true⟩] := by
  have ht := h.tiles
  have hc := h.coalesced
  rcases bs with _ | ⟨b, _ | ⟨d, ds⟩⟩
  · simp only [Tiles] at ht
    omega
  · obtain ⟨ha, hs⟩ := ht
    have hb := hf b (by simp)
    simp only [Tiles] at hs
    cases b
    simp_all
    omega
  · have hb := hf b (by simp)
    have hd := hf d (by simp)
    simp [Coalesced, List.isChain_cons_cons, hb, hd] at hc

theorem mem_absorbNext_used (hb : b.free = true) (he : e.free = false) :
    e ∈ absorbNext b post ↔ e ∈ post := by
  have hne : ∀ d : Block, d.free = true → e ≠ d := by
    rintro d hd rfl
    rw [he] at hd
    cases hd
  cases post with
  | nil => simpa [absorbNext] using hne b hb
  | cons d ds =>
    simp only [absorbNext]
    split
    · next hd => simp [hne d hd, hne { b with size := b.size + d.size } hb]
    · simp [hne b hb]

/-- Freeing a block leaves the other used blocks on the list, and no more. -/
theorem mem_release_used (he : e.free = false) :
    e ∈ BlockTiling.release pre c post ↔ e ∈ pre ∨ e ∈ post := by
  rw [BlockTiling.release]
  rcases List.eq_nil_or_concat' pre with rfl | ⟨pre, q, rfl⟩
  · simp [absorbPrev, mem_absorbNext_used (b := { c with free := true }) rfl he]
  · rw [absorbPrev_concat, List.mem_append]
    split
    · next hq =>
      have hne : e ≠ q := by
        rintro rfl
        rw [he] at hq
        cases hq
      rw [mem_absorbNext_used hq he, mem_absorbNext_used (b := { c with free := true }) rfl he]
      simp [hne]
    · rw [List.mem_cons, mem_absorbNext_used (b := { c with free := true }) rfl he]
      simp [or_assoc]

theorem mem_carve_used (he : e.free = false) :
    e ∈ pre ++ taken need slack c :: (remainder need slack c ++ post) ↔
      e ∈ pre ∨ e = taken need slack c ∨ e ∈ post := by
  have hr : e ∉ remainder need slack c := by
    unfold remainder
    split
    · simp
    · rw [List.mem_singleton]
      rintro rfl
      cases he
  simp [hr]

/-- A stretch of the arena from `lo` to `hi` that no used block touches. -/
structure Vacant (lo hi : Nat) (bs : List Block) (a b : Nat) : Prop where
  start : lo ≤ a
  nonempty : a < b
  stop : b ≤ hi
  off : ∀ c ∈ bs, c.free = false → c.addr + c.size ≤ a ∨ b ≤ c.addr

/-- In a coalesced arena a vacant stretch lies in one free block. -/
theorem Vacant.within (ht : Tiles lo bs hi) (hc : Coalesced bs) (hpos : ∀ c ∈ bs, 0 < c.size)
    (h : Vacant lo hi bs a b) : ∃ c ∈ bs, c.free = true ∧ c.addr ≤ a ∧ b ≤ c.addr + c.size := by
  obtain ⟨hlo, hab, hhi, hoff⟩ := h
  induction bs generalizing lo with
  | nil =>
    have heq : lo = hi := ht
    omega
  | cons c bs ih =>
    obtain ⟨haddr, ht⟩ := ht
    have hc' := coalesced_cons.1 hc
    by_cases hin : a < lo + c.size
    · -- the stretch begins in the first block, and the second one, if it is used, ends it
      have hfree : c.free = true := by
        by_contra hused
        have := hoff c List.mem_cons_self (Bool.eq_false_iff.2 hused)
        omega
      refine ⟨c, List.mem_cons_self, hfree, by omega, ?_⟩
      by_contra hpast
      cases bs with
      | nil =>
        have heq : lo + c.size = hi := ht
        omega
      | cons d bs =>
        have hused : d.free = false := by
          have := hc'.2 d rfl
          simpa [hfree] using this
        have hd := hpos d (by simp)
        have hstart : d.addr = lo + c.size := ht.1
        have := hoff d (by simp) hused
        omega
    · obtain ⟨d, hd, hrest⟩ := ih ht hc'.1 (fun d hd => hpos d (by simp [hd])) (by omega)
        (fun d hd => hoff d (by simp [hd]))
      exact ⟨d, List.mem_cons_of_mem c hd, hrest⟩

theorem Vacant.of_free (ht : Tiles lo bs hi) (hpos : ∀ c ∈ bs, 0 < c.size) (hc : c ∈ bs)
    (hf : c.free = true) : Vacant lo hi bs c.addr (c.addr + c.size) := by
  have hbounds := ht.bounds hc
  have hsize := hpos c hc
  refine ⟨hbounds.1, by omega, hbounds.2, fun d hd hused => ?_⟩
  refine ht.apart hd hc fun heq => ?_
  rw [heq, hf] at hused
  cases hused

/-- A vacant stretch that no other contains. -/
structure MaximalVacant (lo hi : Nat) (bs : List Block) (a b : Nat) : Prop where
  vacant : Vacant lo hi bs a b
  maximal : ∀ a' b', Vacant lo hi bs a' b' → a' ≤ a → b ≤ b' → a' = a ∧ b' = b

/-- In a coalesced arena the maximal vacant stretches are the free blocks. -/
theorem maximalVacant_iff (ht : Tiles lo bs hi) (hc : Coalesced bs)
    (hpos : ∀ c ∈ bs, 0 < c.size) :
    MaximalVacant lo hi bs a b ↔ ∃ c ∈ bs, c.free = true ∧ a = c.addr ∧ b = c.addr + c.size := by
  constructor
  · intro h
    obtain ⟨c, hmem, hf, hstart, hstop⟩ := h.vacant.within ht hc hpos
    have heq := h.maximal _ _ (.of_free ht hpos hmem hf) hstart hstop
    exact ⟨c, hmem, hf, heq.1.symm, heq.2.symm⟩
  · rintro ⟨c, hmem, hf, rfl, rfl⟩
    refine ⟨.of_free ht hpos hmem hf, fun a' b' h hstart hstop => ?_⟩
    obtain ⟨d, hd, -, hdstart, hdstop⟩ := h.within ht hc hpos
    have hcd : d = c := by
      by_contra hne
      have := ht.apart hd hmem hne
      have := hpos c hmem
      omega
    subst hcd
    omega

/-- First fit takes the lowest of the free blocks that are long enough. -/
theorem FirstFit.lowest (hfit : FirstFit need bs pre c post) (ht : Tiles lo bs hi)
    (hd : d ∈ bs) (hf : d.free = true) (hn : need ≤ d.size) : c.addr ≤ d.addr := by
  obtain ⟨rfl, hbefore, -, -⟩ := hfit
  rcases List.mem_append.1 hd with hd | hd
  · exact (hbefore d hd ⟨hf, hn⟩).elim
  · rcases List.mem_cons.1 hd with rfl | hd
    · exact Nat.le_refl _
    · have hord := (List.pairwise_append.1 ht.ordered).2.1
      have := (List.pairwise_cons.1 hord).1 d hd
      omega

end BlockTiling
