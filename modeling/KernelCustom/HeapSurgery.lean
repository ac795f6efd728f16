import KernelCustom.HeapLinks

namespace KernelCustom
open Word32 ByteStore BlockTiling
set_option autoImplicit true

/-- A block list that lies in memory as the kernel links it. -/
structure Chained (m : Mem) (lo hi : Nat) (bs : List Block) : Prop where
  linked : Linked m 0 bs 0
  tiles : Tiles lo bs hi
  roomy : Roomy bs
  pos : 0 < lo
  top : hi ≤ 0x00800000

theorem Chained.header (h : Chained m lo hi (pre ++ c :: post)) :
    Header m c (lastAddr 0 pre) (headAddr post 0) := (linked_append.1 h.linked).2.1

theorem Chained.bounds (h : Chained m lo hi bs) (hb : b ∈ bs) :
    lo ≤ b.addr ∧ b.addr + b.size ≤ hi ∧ 32 ≤ b.size :=
  ⟨(h.tiles.bounds hb).1, (h.tiles.bounds hb).2, h.roomy b hb⟩

theorem headAddr_le (ht : Tiles lo bs hi) : headAddr bs 0 ≤ hi := by
  cases bs with
  | nil => exact Nat.zero_le _
  | cons b bs =>
    have := ht.bounds (b := b) (by simp)
    simp only [headAddr]
    omega

/-- Replacing the part of a list from one block on: the part before it is not written. -/
theorem Chained.replace (h : Chained m lo hi (pre ++ c :: post))
    (hs : SameOn m m' lo c.addr) (ht : Tiles c.addr new hi) (hr : Roomy new)
    (hh : headAddr new 0 = c.addr) (hl : Linked m' (lastAddr 0 pre) new 0) :
    Chained m' lo hi (pre ++ new) := by
  obtain ⟨mid, hp, hc, hq⟩ := tiles_append.1 h.tiles
  subst hc
  refine ⟨linked_append.2 ⟨?_, hl⟩, tiles_append.2 ⟨_, hp, ht⟩, ?_, h.pos, h.top⟩
  · rw [hh]
    have hl := (linked_append.1 h.linked).1
    exact hl.sameOn_tiles hp (fun b hb => h.roomy b (by simp [hb])) hs
  · intro b hb
    rcases List.mem_append.1 hb with hb | hb
    · exact h.roomy b (by simp [hb])
    · exact hr b hb

theorem alignUp_of_aligned (h : n % 16 = 0) (hn : n < 4294967280) : alignUp n 16 = n := by
  rw [alignUp_sixteen]
  omega

/-- The sums that `split_block` makes for an aligned size. -/
theorem splitBlock_words (ha : a % 16 = 0) (hb : a ≤ 0x00800000) :
    alignUp a 16 = a ∧ wrap (32 + a) = a + 32 ∧ wrap (a + 32 + 32 + 16) = a + 80 := by
  refine ⟨alignUp_of_aligned ha (by omega), ?_, ?_⟩
  · rw [Nat.add_comm, wrap_of_lt (by omega)]
  · exact wrap_of_lt (by omega)

/-- A block that leaves too little behind is not split. -/
theorem splitBlock_of_le (hs : blockSize m b ≤ a + 80) (ha : a % 16 = 0)
    (hb : a ≤ 0x00800000) : splitBlock m b a = m := by
  obtain ⟨halign, hneed, hslack⟩ := splitBlock_words ha hb
  simp only [splitBlock, headerSize_eq, heapAlign, halign, hneed, hslack]
  rw [if_pos hs]

/-- The stores of a split, with the values they read from the old header. -/
theorem splitBlock_of_gt (h : Header m c p q) (hs : a + 80 < c.size) (ha : a % 16 = 0)
    (hb : c.addr + c.size ≤ 0x00800000) (hq : q < 4294967296) :
    setFree (splitBlock m c.addr a) c.addr 0 =
      shrinkHeader (relink (writeHeader m (c.addr + (a + 32)) (c.size - (a + 32)) q c.addr) q
        (c.addr + (a + 32))) c.addr (a + 32) (c.addr + (a + 32)) := by
  have hsz : blockSize m c.addr = c.size := h.size
  have hnx : blockNext m c.addr = q := h.next
  obtain ⟨halign, hneed, hslack⟩ := splitBlock_words ha (by omega)
  have hnew : wrap (c.addr + (a + 32)) = c.addr + (a + 32) := wrap_of_lt (by omega)
  simp only [splitBlock, headerSize_eq, heapAlign, halign, hneed, hslack, hnew]
  rw [if_neg (by omega)]
  generalize hn : c.addr + (a + 32) = n
  have h₁ : blockSize (setMagic m n blockMagicWord) c.addr = c.size := by
    rw [← hsz]
    exact load32_store32_of_ne _ _ (by omega)
  have h₂ : sub c.size (a + 32) = c.size - (a + 32) := sub_of_le (by omega) (by omega)
  rw [h₁, h₂]
  have h₃ : blockNext (setFree (setSize (setMagic m n blockMagicWord) n (c.size - (a + 32))) n 1)
      c.addr = q := by
    rw [← hnx]
    simp (disch := omega) only [blockNext, setFree, setSize, setMagic, load32_store32_of_ne,
      load32_update_of_ne]
  have hw : Header (writeHeader m n (c.size - (a + 32)) q c.addr)
      ⟨n, c.size - (a + 32), true⟩ c.addr q :=
    writeHeader_header m n (by omega) hq (by omega)
  have h₄ : blockNext (writeHeader m n (c.size - (a + 32)) q c.addr) n = q := hw.next
  rw [writeHeader] at h₄
  rw [h₃, h₄, shrinkHeader, writeHeader]

theorem Chained.after (h : Chained m lo hi (pre ++ c :: post)) :
    Tiles (c.addr + c.size) post hi ∧ Roomy post := by
  obtain ⟨mid, -, hc, hq⟩ := tiles_append.1 h.tiles
  subst hc
  exact ⟨hq, fun b hb => h.roomy b (by simp [hb])⟩

theorem Chained.setFree (h : Chained m lo hi (pre ++ c :: post)) (f : Bool) :
    Chained (KernelCustom.setFree m c.addr (if f then 1 else 0)) lo hi
      (pre ++ { c with free := f } :: post) := by
  have hb := h.bounds (b := c) (by simp)
  obtain ⟨ht, hr⟩ := h.after
  have hl := (linked_append.1 h.linked).2.2
  refine h.replace (update_sameOn _ _ (by omega)) ⟨rfl, ht⟩ ?_ rfl ?_
  · intro b hb'
    rcases List.mem_cons.1 hb' with rfl | hb'
    · exact hb.2.2
    · exact hr b hb'
  · exact ⟨h.header.setFree f, hl.sameOn_tiles ht hr (update_sameOn _ _ (by omega))⟩

/-- Splitting a block: the new header, then the successor's back link, then the old header. -/
theorem Chained.split (h : Chained m lo hi (pre ++ c :: post)) (hs : n + 48 < c.size)
    (hn : 32 ≤ n) :
    Chained (shrinkHeader (relink (writeHeader m (c.addr + n) (c.size - n) (headAddr post 0) c.addr)
        (headAddr post 0) (c.addr + n)) c.addr n (c.addr + n)) lo hi
      (pre ++ ⟨c.addr, n, false⟩ :: ⟨c.addr + n, c.size - n, true⟩ :: post) := by
  have hb := h.bounds (b := c) (by simp)
  have hlo := h.pos
  have htop := h.top
  obtain ⟨ht, hr⟩ := h.after
  have hl := (linked_append.1 h.linked).2.2
  have hq := headAddr_le ht
  have hw : Header (writeHeader m (c.addr + n) (c.size - n) (headAddr post 0) c.addr)
      ⟨c.addr + n, c.size - n, true⟩ c.addr (headAddr post 0) :=
    writeHeader_header m (c.addr + n) (by omega) (by omega) (by omega)
  have hws : ∀ lo hi, hi ≤ c.addr + n ∨ c.addr + n + 20 ≤ lo → SameOn m
      (writeHeader m (c.addr + n) (c.size - n) (headAddr post 0) c.addr) lo hi :=
    fun _ _ => writeHeader_sameOn m _ _ _
  generalize writeHeader m (c.addr + n) (c.size - n) (headAddr post 0) c.addr = m₁ at hw hws ⊢
  have hl₁ : Linked m₁ c.addr post 0 := hl.sameOn_tiles ht hr (hws _ _ (by omega))
  have hnew : c.addr + n < 4294967296 := by omega
  have hl₂ := hl₁.relink ht hr (by omega) hnew
  have hs₂ := fun lo => relink_sameOn m₁ (c.addr + n) lo ht (Nat.le_refl _)
  generalize KernelCustom.relink m₁ (headAddr post 0) (c.addr + n) = m₂ at hl₂ hs₂ ⊢
  have hc₂ : Header m₂ c (lastAddr 0 pre) (headAddr post 0) :=
    (h.header.sameOn (hws _ _ (by omega))).sameOn ((hs₂ _).mono (Nat.le_refl _) (by omega))
  have hn₂ : Header m₂ ⟨c.addr + n, c.size - n, true⟩ c.addr (headAddr post 0) :=
    hw.sameOn ((hs₂ _).mono (Nat.le_refl _) (by simp only; omega))
  have hs₃ : ∀ lo hi, hi ≤ c.addr ∨ c.addr + 20 ≤ lo → SameOn m₂
      (shrinkHeader m₂ c.addr n (c.addr + n)) lo hi := fun _ _ => shrinkHeader_sameOn m₂ _ _
  refine h.replace ?_ ⟨rfl, rfl, ?_⟩ ?_ rfl
    ⟨hc₂.shrink (by omega) (by omega), hn₂.sameOn (hs₃ _ _ (by simp only; omega)),
      hl₂.sameOn_tiles ht hr (hs₃ _ _ (by omega))⟩
  · refine SameOn.trans (hws _ _ (by omega)) (SameOn.trans ?_ (hs₃ _ _ (by omega)))
    exact (hs₂ lo).mono (Nat.le_refl _) (by omega)
  · have hend : c.addr + n + (c.size - n) = c.addr + c.size := by omega
    simpa only [hend] using ht
  · intro b hb'
    simp only [List.mem_cons] at hb'
    rcases hb' with rfl | rfl | hb'
    · exact hn
    · simp only
      omega
    · exact hr b hb'

/-- `kmalloc` takes a block from the list: it splits it and marks it used. -/
theorem Chained.take (h : Chained m lo hi (pre ++ c :: post)) (ha : a % 16 = 0)
    (hn : a + 32 ≤ c.size) :
    Chained (KernelCustom.setFree (splitBlock m c.addr a) c.addr 0) lo hi
      (pre ++ taken (a + 32) 48 c :: (remainder (a + 32) 48 c ++ post)) := by
  have hb := h.bounds (b := c) (by simp)
  have htop := h.top
  have hq := headAddr_le h.after.1
  by_cases hs : c.size ≤ a + 32 + 48
  · rw [splitBlock_of_le (by rw [h.header.size]; omega) ha (by omega)]
    simp only [taken, remainder, if_pos hs]
    exact h.setFree false
  · simp only [taken, remainder, if_neg hs]
    rw [splitBlock_of_gt h.header (by omega) ha (by omega) (by omega)]
    exact h.split (by omega) (by omega)

/-- Taking a block writes inside it and in the header that follows it. -/
theorem Chained.take_apply (h : Chained m lo hi (pre ++ c :: post)) (ha : a % 16 = 0)
    (hn : a + 32 ≤ c.size) (hx : x < c.addr ∨ c.addr + c.size ≤ x)
    (hp : ∀ b ∈ post, x < b.addr ∨ b.addr + 20 ≤ x) :
    KernelCustom.setFree (splitBlock m c.addr a) c.addr 0 x = m x := by
  have hb := h.bounds (b := c) (by simp)
  have htop := h.top
  have hq := headAddr_le h.after.1
  have hself : x ≤ x ∧ x < x + 1 := by omega
  by_cases hs : c.size ≤ a + 32 + 48
  · rw [splitBlock_of_le (by rw [h.header.size]; omega) ha (by omega)]
    exact Function.update_of_ne (by omega) _ _
  · rw [splitBlock_of_gt h.header (by omega) ha (by omega) (by omega)]
    rw [shrinkHeader_sameOn _ _ _ (by omega) x hself.1 hself.2, relink_apply _ _ hp]
    exact writeHeader_sameOn m _ _ _ (by omega) x hself.1 hself.2

/-- A free successor is merged, as the block list in memory sees it. -/
theorem mergeWithNext_of_free (h : Header m b p q) (hd : Header m d b.addr r)
    (hq : q = d.addr) (hf : d.free = true) (hadj : d.addr = b.addr + b.size) (hpos : 0 < b.addr)
    (hroom : 20 ≤ b.size) (hb : d.addr + d.size ≤ 0x00800000) (hr : r < 4294967296) :
    mergeWithNext m b.addr =
      relink (setNext (setSize m b.addr (b.size + d.size)) b.addr r) r b.addr := by
  subst hq
  have hd0 : d.addr ≠ 0 := by omega
  have hfree : blockFree m d.addr ≠ 0 := by
    rw [hd.free, hf]
    decide
  have hend : wrap (b.addr + b.size) = b.addr + b.size := wrap_of_lt (by omega)
  have hsum : wrap (b.size + d.size) = b.size + d.size := wrap_of_lt (by omega)
  simp only [mergeWithNext, h.next, h.size, hd.size]
  rw [if_neg (by simp only [not_or]; exact ⟨by omega, hd0, hfree⟩), hend,
    if_neg (by simpa using hadj), hsum]
  have hnext : blockNext (setSize m b.addr (b.size + d.size)) d.addr = r := by
    rw [← hd.next]
    exact load32_store32_of_ne _ _ (by omega)
  have hback : blockNext (setNext (setSize m b.addr (b.size + d.size)) b.addr r) b.addr = r :=
    load32_store32_self _ hr
  rw [hnext, hback]

theorem mergeWithNext_of_used (h : Header m b p (headAddr post 0)) (hl : Linked m b.addr post 0)
    (hf : ∀ d ∈ post.head?, d.free = false) : mergeWithNext m b.addr = m := by
  rw [mergeWithNext, if_pos]
  rw [h.next]
  cases post with
  | nil => exact .inr (.inl rfl)
  | cons d post =>
    have hd : d.free = false := hf d rfl
    have hfree := hl.1.free
    rw [hd] at hfree
    exact .inr (.inr hfree)

theorem Chained.merge (h : Chained m lo hi (pre ++ b :: post)) :
    Chained (mergeWithNext m b.addr) lo hi (pre ++ absorbNext b post) := by
  have hb := h.bounds (b := b) (by simp)
  have hlo := h.pos
  have htop := h.top
  obtain ⟨ht, hr⟩ := h.after
  have hl := (linked_append.1 h.linked).2.2
  by_cases hf : ∀ d ∈ post.head?, d.free = false
  · rw [mergeWithNext_of_used h.header hl hf, absorbNext_of_head _ hf]
    exact h
  · cases post with
    | nil => simp at hf
    | cons d post =>
      have hd : d.free = true := by simpa using hf
      obtain ⟨hadj, ht'⟩ := ht
      have hbd := h.bounds (b := d) (by simp)
      have hr' : Roomy post := fun e he => hr e (by simp [he])
      have hq := headAddr_le ht'
      rw [mergeWithNext_of_free h.header hl.1 rfl hd hadj (by omega) (by omega) (by omega)
        (by omega), absorbNext_of_free _ hd]
      have hh : Header (setNext (setSize m b.addr (b.size + d.size)) b.addr (headAddr post 0))
          { b with size := b.size + d.size } (lastAddr 0 pre) (headAddr post 0) :=
        (h.header.setSize (by omega)).setNext (by omega)
      have hs : ∀ lo hi, hi ≤ b.addr ∨ b.addr + 20 ≤ lo → SameOn m
          (setNext (setSize m b.addr (b.size + d.size)) b.addr (headAddr post 0)) lo hi := by
        intro lo hi ho x hx hx'
        simp (disch := omega) only [setNext, setSize, store32_apply_of_outside]
      generalize setNext (setSize m b.addr (b.size + d.size)) b.addr (headAddr post 0) = m₁
        at hh hs ⊢
      have hl₁ : Linked m₁ d.addr post 0 := hl.2.sameOn_tiles ht' hr' (hs _ _ (by omega))
      have hback : b.addr < 4294967296 := by omega
      have hl₂ := hl₁.relink ht' hr' (by omega) hback
      have hs₂ := fun lo => relink_sameOn m₁ b.addr lo ht' (Nat.le_refl _)
      refine h.replace ?_ ⟨rfl, ?_⟩ ?_ rfl ⟨hh.sameOn ((hs₂ _).mono (Nat.le_refl _) ?_), hl₂⟩
      · exact (hs _ _ (by omega)).trans ((hs₂ lo).mono (Nat.le_refl _) (by omega))
      · simpa [Nat.add_assoc] using ht'
      · intro e he
        rcases List.mem_cons.1 he with rfl | he
        · simp only
          omega
        · exact hr' e he
      · simp only
        omega

/-- Merging writes headers only. -/
theorem Chained.merge_apply (h : Chained m lo hi (pre ++ b :: post))
    (hx : ∀ c ∈ b :: post, x < c.addr ∨ c.addr + 20 ≤ x) : mergeWithNext m b.addr x = m x := by
  have hb := h.bounds (b := b) (by simp)
  have hlo := h.pos
  have htop := h.top
  obtain ⟨ht, hr⟩ := h.after
  have hl := (linked_append.1 h.linked).2.2
  by_cases hf : ∀ d ∈ post.head?, d.free = false
  · rw [mergeWithNext_of_used h.header hl hf]
  · cases post with
    | nil => simp at hf
    | cons d post =>
      have hd : d.free = true := by simpa using hf
      have hbd := h.bounds (b := d) (by simp)
      have hq := headAddr_le ht.2
      rw [mergeWithNext_of_free h.header hl.1 rfl hd ht.1 (by omega) (by omega) (by omega)
        (by omega), relink_apply _ _ (fun c hc => hx c (by simp [hc]))]
      have := hx b (by simp)
      simp (disch := omega) only [setNext, setSize, store32_apply_of_outside]

end KernelCustom
