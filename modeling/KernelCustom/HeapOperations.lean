import KernelCustom.HeapSurgery

namespace KernelCustom
open Word32 ByteStore BlockTiling
set_option autoImplicit true

/-- The heap in memory represents a block list that tiles `g_heap`. -/
structure HeapRep (L : Layout) (s : MemoryState) (bs : List Block) : Prop where
  ready : s.gHeapReady = true
  head : s.gHeapHead = L.gHeap
  linked : Linked s.mem 0 bs 0
  arena : Arena 16 48 L.gHeap L.heapEnd bs

theorem HeapRep.chained (h : HeapRep L s bs) : Chained s.mem L.gHeap L.heapEnd bs := by
  have hp := L.heap_placed
  have hu := L.below_user
  refine ⟨h.linked, h.arena.tiles, ?_, by omega, ?_⟩
  · intro b hb
    have := h.arena.least b hb
    omega
  · simp only [Layout.heapEnd]
    omega

theorem HeapRep.bounds (h : HeapRep L s bs) (hb : b ∈ bs) :
    L.gHeap ≤ b.addr ∧ b.addr + b.size ≤ L.heapEnd ∧ 48 ≤ b.size ∧ 0 < b.addr ∧
      b.addr + b.size ≤ 0x00800000 := by
  have h₁ := h.chained.bounds hb
  have h₂ := h.arena.least b hb
  have h₃ := h.chained.pos
  have h₄ := h.chained.top
  omega

/-- Bytes the allocator leaves to others: all outside the heap, and the payloads in use. -/
def ClientByte (L : Layout) (bs : List Block) (x : Nat) : Prop :=
  x < L.gHeap ∨ L.heapEnd ≤ x ∨ ∃ b ∈ bs, b.free = false ∧ b.addr + 32 ≤ x ∧ x < b.addr + b.size

theorem HeapRep.client_off_header (h : HeapRep L s bs) (hx : ClientByte L bs x) (hb : b ∈ bs) :
    x < b.addr ∨ b.addr + 32 ≤ x := by
  have hbb := h.bounds hb
  rcases hx with hx | hx | ⟨c, hc, hf, hl, hu⟩
  · omega
  · omega
  · by_cases hbc : b = c
    · subst hbc
      exact .inr hl
    · have := h.arena.tiles.apart hb hc hbc
      omega

theorem HeapRep.client_off_free (h : HeapRep L s bs) (hx : ClientByte L bs x) (hb : b ∈ bs)
    (hf : b.free = true) : x < b.addr ∨ b.addr + b.size ≤ x := by
  have hbb := h.bounds hb
  rcases hx with hx | hx | ⟨c, hc, hcf, hl, hu⟩
  · omega
  · omega
  · have hbc : b ≠ c := by
      intro he
      rw [he, hcf] at hf
      cases hf
    have := h.arena.tiles.apart hb hc hbc
    omega

theorem heapInit_rep (L : Layout) (h : s.gHeapReady = false) :
    HeapRep L (heapInit L s) [⟨L.gHeap, 524288, true⟩] := by
  simp only [heapInit, h, Bool.false_eq_true, if_false]
  have ht : Tiles L.gHeap [⟨L.gHeap, 524288, true⟩] L.heapEnd := by
    simp only [Tiles, Layout.heapEnd, and_self]
  refine ⟨rfl, rfl, ⟨?_, trivial⟩, ⟨ht, ?_, ?_, List.isChain_singleton _⟩⟩
  · exact writeHeader_header s.mem L.gHeap (by decide) (by decide) (by decide)
  · simp only [List.mem_singleton, forall_eq]
  · simp only [List.mem_singleton, forall_eq]
    decide

/-- The test in the search loop of `kmalloc`, read off the block. -/
theorem Header.suitable_iff (h : Header m b p q) (t : Nat) :
    (blockMagic m b.addr = blockMagicWord ∧ blockFree m b.addr ≠ 0 ∧ t ≤ blockSize m b.addr) ↔
      (b.free = true ∧ t ≤ b.size) := by
  rw [h.magic, h.size, h.free]
  cases b.free <;> simp

theorem kmallocLoop_none (hl : Linked m prev bs 0) (hpos : ∀ b ∈ bs, b.addr ≠ 0)
    (hlen : bs.length < fuel)
    (hn : ∀ b ∈ bs, ¬ (b.free = true ∧ wrap (a + headerSize) ≤ b.size)) :
    kmallocLoop m a fuel (headAddr bs 0) = some (0, m) := by
  induction bs generalizing prev fuel with
  | nil =>
    cases fuel with
    | zero => omega
    | succ fuel => simp [kmallocLoop, headAddr]
  | cons b bs ih =>
    cases fuel with
    | zero => omega
    | succ fuel =>
      obtain ⟨hb, hl⟩ := hl
      have hskip := mt (hb.suitable_iff _).1 (hn b (by simp))
      rw [headAddr, kmallocLoop, if_neg (hpos b (by simp)), if_neg hskip, hb.next]
      exact ih hl (fun c hc => hpos c (by simp [hc])) (by simpa using hlen)
        fun c hc => hn c (by simp [hc])

theorem kmallocLoop_found (hl : Linked m prev bs 0) (hpos : ∀ b ∈ bs, b.addr ≠ 0)
    (hlen : bs.length < fuel) (hf : FirstFit (wrap (a + headerSize)) bs pre c post) :
    kmallocLoop m a fuel (headAddr bs 0) =
      some (blockPayload c.addr, setFree (splitBlock m c.addr a) c.addr 0) := by
  obtain ⟨rfl, hb, hc, he⟩ := hf
  induction pre generalizing prev fuel with
  | nil =>
    cases fuel with
    | zero => omega
    | succ fuel =>
      have htake := (hl.1.suitable_iff (wrap (a + headerSize))).2 ⟨hc, he⟩
      rw [List.nil_append, headAddr, kmallocLoop, if_neg (hpos c (by simp)), if_pos htake]
  | cons b pre ih =>
    cases fuel with
    | zero => omega
    | succ fuel =>
      obtain ⟨hh, hl⟩ := hl
      have hskip := mt (hh.suitable_iff _).1 (hb b (by simp))
      rw [List.cons_append, headAddr, kmallocLoop, if_neg (hpos b (by simp)), if_neg hskip,
        hh.next]
      exact ih (fun d hd => hb d (by simp [hd])) hl
        (fun d hd => hpos d (List.mem_cons_of_mem _ hd)) (by simpa using hlen)

theorem HeapRep.headAddr_eq (h : HeapRep L s bs) : headAddr bs 0 = L.gHeap := by
  have ht := h.arena.tiles
  cases bs with
  | nil =>
    simp only [Tiles, Layout.heapEnd] at ht
    omega
  | cons b bs => exact ht.1

theorem HeapRep.length_lt (h : HeapRep L s bs) : bs.length < 4294967296 := by
  have := h.arena.tiles.length_le h.arena.least
  simp only [Layout.heapEnd] at this
  omega

theorem HeapRep.pos (h : HeapRep L s bs) : ∀ b ∈ bs, b.addr ≠ 0 := by
  intro b hb
  have := h.bounds hb
  omega

/-- `kmalloc` on any request: first fit for the size its registers hold. -/
theorem kmalloc_eq (h : HeapRep L s bs) (hn : n ≠ 0) :
    ((∀ b ∈ bs, ¬ (b.free = true ∧ wrap (alignUp n 16 + headerSize) ≤ b.size)) ∧
      kmalloc L s n = some (0, s)) ∨
    ∃ pre c post, FirstFit (wrap (alignUp n 16 + headerSize)) bs pre c post ∧
      kmalloc L s n = some (c.addr + 32,
        { s with mem := setFree (splitBlock s.mem c.addr (alignUp n 16)) c.addr 0 }) := by
  have hs : (if s.gHeapReady then s else heapInit L s) = s := if_pos h.ready
  have hhead : headAddr bs 0 = s.gHeapHead := h.headAddr_eq.trans h.head.symm
  simp only [kmalloc, if_neg hn, hs, heapAlign]
  rcases firstFit_or_none (wrap (alignUp n 16 + headerSize)) bs with hnone | ⟨pre, c, post, hf⟩
  · have hloop := kmallocLoop_none h.linked h.pos h.length_lt hnone
    rw [hhead] at hloop
    exact .inl ⟨hnone, by rw [hloop]; rfl⟩
  · have hloop := kmallocLoop_found h.linked h.pos h.length_lt hf
    have hc := h.bounds (b := c) (by simp [hf.split])
    rw [hhead, blockPayload, headerSize_eq, wrap_of_lt (by omega)] at hloop
    exact .inr ⟨pre, c, post, hf, by rw [hloop]; rfl⟩

/-- The bytes a request takes from a block, header included. -/
def footprint (n : Nat) : Nat := alignUp n 16 + 32

theorem footprint_eq (h : n ≤ 4294967248) : footprint n = (n + 15) / 16 * 16 + 32 := by
  simp only [footprint, alignUp_sixteen]
  omega

/-- `kmalloc` on a request whose footprint fits in a register. -/
theorem kmalloc_spec (h : HeapRep L s bs) (hpos : 0 < n) (hn : n ≤ 4294967248) :
    ((∀ b ∈ bs, ¬ (b.free = true ∧ footprint n ≤ b.size)) ∧ kmalloc L s n = some (0, s)) ∨
    ∃ pre c post s', FirstFit (footprint n) bs pre c post ∧
      kmalloc L s n = some (c.addr + 32, s') ∧
      HeapRep L s' (pre ++ taken (footprint n) 48 c :: (remainder (footprint n) 48 c ++ post)) ∧
      (∀ x, ClientByte L bs x → s'.mem x = s.mem x) ∧ s' = { s with mem := s'.mem } := by
  have hfp := footprint_eq hn
  have hw : wrap (alignUp n 16 + headerSize) = footprint n := by
    rw [headerSize_eq]
    exact wrap_of_lt (by simp only [footprint] at hfp; omega)
  have ha : alignUp n 16 % 16 = 0 := by
    rw [alignUp_sixteen]
    omega
  rcases kmalloc_eq h (n := n) (by omega) with ⟨hnone, he⟩ | ⟨pre, c, post, hf, he⟩
  · rw [hw] at hnone
    exact .inl ⟨hnone, he⟩
  · rw [hw] at hf
    refine .inr ⟨pre, c, post, _, hf, he, ?_, ?_, rfl⟩
    · obtain ⟨rfl, hb, hc, hsz⟩ := hf
      refine ⟨h.ready, h.head, (h.chained.take ha hsz).linked, ?_⟩
      exact h.arena.carve hc hsz (by omega) (by omega) (by decide)
    · intro x hx
      obtain ⟨rfl, hb, hc, hsz⟩ := hf
      refine h.chained.take_apply ha hsz (h.client_off_free hx (by simp) hc) ?_
      intro b hb
      have := h.client_off_header hx (b := b) (by simp [hb])
      omega

theorem payloadBlock_eq (h : b < 0x00800000) : payloadBlock (b + 32) = b := by
  rw [payloadBlock, headerSize_eq, sub_of_le (by omega) (by omega)]
  omega

/-- The second merge of `kfree`, with the block before the freed one. -/
theorem Chained.mergePrev (h : Chained m lo hi (pre ++ c :: post)) :
    Chained (if blockPrev m c.addr ≠ 0 ∧ blockFree m (blockPrev m c.addr) ≠ 0 then
      mergeWithNext m (blockPrev m c.addr) else m) lo hi (absorbPrev pre (c :: post)) ∧
    ∀ x, (∀ b ∈ pre ++ c :: post, x < b.addr ∨ b.addr + 20 ≤ x) →
      (if blockPrev m c.addr ≠ 0 ∧ blockFree m (blockPrev m c.addr) ≠ 0 then
        mergeWithNext m (blockPrev m c.addr) else m) x = m x := by
  have hlo := h.pos
  rw [h.header.prev]
  rcases List.eq_nil_or_concat' pre with rfl | ⟨pre, q, rfl⟩
  · rw [lastAddr, if_neg (by simp)]
    exact ⟨h, fun _ _ => rfl⟩
  · rw [lastAddr_concat, absorbPrev_concat]
    rw [List.append_assoc, List.singleton_append] at h ⊢
    have hq := h.bounds (b := q) (by simp)
    rw [h.header.free]
    cases hf : q.free with
    | true =>
      rw [if_pos (by simp; omega), if_pos rfl]
      exact ⟨h.merge, fun x hx => h.merge_apply fun b hb => hx b (by simp_all)⟩
    | false =>
      rw [if_neg (by simp), if_neg (by simp)]
      exact ⟨h, fun _ _ => rfl⟩

/-- `kfree` of a block of the list. -/
theorem kfree_spec (h : HeapRep L s (pre ++ c :: post)) :
    HeapRep L (kfree s (c.addr + 32)) (release pre c post) ∧
    (∀ x, (∀ b ∈ pre ++ c :: post, x < b.addr ∨ b.addr + 20 ≤ x) →
      (kfree s (c.addr + 32)).mem x = s.mem x) ∧
    kfree s (c.addr + 32) = { s with mem := (kfree s (c.addr + 32)).mem } := by
  have hc := h.bounds (b := c) (by simp)
  have hp : c.addr + 32 ≠ 0 := by omega
  have hmagic : ¬ blockMagic s.mem c.addr ≠ blockMagicWord := not_not.2 h.chained.header.magic
  have hblock : payloadBlock (c.addr + 32) = c.addr := payloadBlock_eq (by omega)
  simp only [kfree, if_neg hp, hblock, if_neg hmagic]
  have h₁ := h.chained.setFree true
  have h₂ := h₁.merge
  obtain ⟨n, rest, he, hrest⟩ := absorbNext_cons { c with free := true } post
  have hx₂ := fun x => h₁.merge_apply (x := x)
  rw [he] at h₂
  obtain ⟨h₃, hx₃⟩ := h₂.mergePrev
  refine ⟨⟨h.ready, h.head, ?_, h.arena.release⟩, ?_, trivial⟩
  · rw [release, he]
    exact h₃.linked
  · intro x hx
    have hxc := hx c (by simp)
    refine (hx₃ x ?_).trans ((hx₂ x ?_).trans (Function.update_of_ne (by omega) _ _))
    · intro b hb
      simp only [List.mem_append, List.mem_cons] at hb
      rcases hb with hb | rfl | hb
      · exact hx b (by simp [hb])
      · exact hxc
      · exact hx b (by simp [hrest b hb])
    · intro b hb
      rcases List.mem_cons.1 hb with rfl | hb
      · exact hxc
      · exact hx b (by simp [hb])

theorem HeapRep.kfree_client (h : HeapRep L s (pre ++ c :: post))
    (hx : ClientByte L (pre ++ c :: post) x) : (kfree s (c.addr + 32)).mem x = s.mem x := by
  apply (kfree_spec h).2.1
  intro b hb
  have := h.client_off_header hx hb
  omega

/-- A block that was just handed out is given back. -/
theorem HeapRep.giveBack (h : HeapRep L s bs) (hfit : FirstFit (footprint n) bs pre c post)
    (h' : HeapRep L s' (pre ++ taken (footprint n) 48 c ::
      (remainder (footprint n) 48 c ++ post))) :
    HeapRep L (kfree s' (c.addr + 32)) bs := by
  have hfree := (kfree_spec h').1
  rw [taken_addr, release_taken (hfit.split ▸ h.arena.coalesced) hfit.free hfit.enough,
    ← hfit.split] at hfree
  exact hfree

/-- The heap survives any change to bytes the allocator does not own. -/
theorem HeapRep.of_sameOn (h : HeapRep L s bs)
    (hm : ∀ x, (∃ b ∈ bs, b.addr ≤ x ∧ x < b.addr + 20) → m x = s.mem x) :
    HeapRep L { s with mem := m } bs := by
  refine ⟨h.ready, h.head, h.linked.sameOn ?_, h.arena⟩
  intro b hb x hl hu
  exact hm x ⟨b, hb, hl, hu⟩

end KernelCustom
