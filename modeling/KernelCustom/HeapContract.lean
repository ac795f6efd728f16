import KernelCustom.HeapRuns

namespace KernelCustom
open Word32 ByteStore BlockTiling
set_option autoImplicit true

/-- What the headers of a block list say. -/
def views (prev : Nat) : List Block → List HeapBlock
  | [] => []
  | b :: bs =>
    ⟨b.addr, blockMagicWord, b.size, if b.free then 1 else 0, headAddr bs 0, prev⟩ ::
      views b.addr bs

theorem blocksFrom_eq (hl : Linked m prev bs 0) (hpos : ∀ b ∈ bs, b.addr ≠ 0)
    (hlen : bs.length ≤ fuel) : blocksFrom m fuel (headAddr bs 0) = views prev bs := by
  induction bs generalizing prev fuel with
  | nil => cases fuel <;> simp [blocksFrom, headAddr, views]
  | cons b bs ih =>
    cases fuel with
    | zero => simp at hlen
    | succ fuel =>
      obtain ⟨hb, hl⟩ := hl
      have hrec := ih hl (fun c hc => hpos c (by simp [hc])) (by simpa using hlen)
      rw [headAddr, blocksFrom, if_neg (hpos b (by simp)), hb.next, hrec, views, readBlock,
        hb.magic, hb.size, hb.free, hb.next, hb.prev]

theorem HeapRep.blockList_eq (h : HeapRep L s bs) : blockList s = views 0 bs := by
  rw [blockList, h.head, ← h.headAddr_eq]
  exact blocksFrom_eq h.linked h.pos (Nat.le_of_lt h.length_lt)

theorem mem_views (h : v ∈ views prev bs) :
    ∃ b ∈ bs, v.addr = b.addr ∧ v.magic = blockMagicWord ∧ v.size = b.size ∧
      v.free = if b.free then 1 else 0 := by
  induction bs generalizing prev with
  | nil => cases h
  | cons b bs ih =>
    rcases List.mem_cons.1 h with rfl | h
    · exact ⟨b, by simp, rfl, rfl, rfl, rfl⟩
    · obtain ⟨c, hc, hv⟩ := ih h
      exact ⟨c, by simp [hc], hv⟩

theorem views_mem (prev : Nat) (h : b ∈ bs) :
    ∃ v ∈ views prev bs, v.addr = b.addr ∧ v.size = b.size ∧ v.free = if b.free then 1 else 0 := by
  induction bs generalizing prev with
  | nil => cases h
  | cons c bs ih =>
    rcases List.mem_cons.1 h with rfl | h
    · exact ⟨_, List.mem_cons_self, rfl, rfl, rfl⟩
    · obtain ⟨v, hv, he⟩ := ih c.addr h
      exact ⟨v, by simp [views, hv], he⟩

theorem HeapRep.no_free_iff (h : HeapRep L s bs) :
    (∀ v ∈ blockList s, v.free = 0) ↔ ∀ b ∈ bs, b.free = false := by
  rw [h.blockList_eq]
  constructor
  · intro hv b hb
    obtain ⟨v, hmem, -, -, hf⟩ := views_mem 0 hb
    rw [hv v hmem] at hf
    by_contra hne
    simp [hne] at hf
  · intro hb v hv
    obtain ⟨b, hmem, -, -, -, hf⟩ := mem_views hv
    rw [hf, hb b hmem]
    rfl

/-- The block list tiles `g_heap`, as its headers show. -/
structure HeapTiled (L : Layout) (s : MemoryState) : Prop where
  head : s.gHeapHead = L.gHeap
  first : ∀ v ∈ (blockList s).head?, v.addr = L.gHeap ∧ v.prev = 0
  last : ∃ v ∈ (blockList s).getLast?, v.next = 0
  magic : ∀ v ∈ blockList s, v.magic = blockMagicWord
  size : ∀ v ∈ blockList s, v.size % 16 = 0 ∧ 48 ≤ v.size
  inside : ∀ v ∈ blockList s, v.addr + v.size ≤ L.heapEnd
  next : ∀ v ∈ blockList s,
    v.next = if v.addr + v.size = L.heapEnd then 0 else v.addr + v.size
  linked : (blockList s).IsChain fun v w => w.addr = v.next ∧ w.prev = v.addr
  coalesced : (blockList s).IsChain fun v w => ¬ (v.free ≠ 0 ∧ w.free ≠ 0)

theorem views_next (ht : Tiles lo bs hi) (hpos : ∀ b ∈ bs, 0 < b.size) (hv : v ∈ views prev bs) :
    v.next = if v.addr + v.size = hi then 0 else v.addr + v.size := by
  induction bs generalizing lo prev with
  | nil => cases hv
  | cons b bs ih =>
    obtain ⟨hb, ht⟩ := ht
    rcases List.mem_cons.1 hv with rfl | hv
    · cases bs with
      | nil =>
        simp only [Tiles] at ht
        simp only [headAddr]
        rw [if_pos (by omega)]
      | cons c bs =>
        have hc := hpos c (by simp)
        have hle := ht.2.le
        have ha := ht.1
        simp only [headAddr]
        rw [if_neg (by omega)]
        omega
    · exact ih ht (fun c hc => hpos c (by simp [hc])) hv

theorem views_linked (bs : List Block) (prev : Nat) :
    (views prev bs).IsChain fun v w => w.addr = v.next ∧ w.prev = v.addr := by
  induction bs generalizing prev with
  | nil => exact .nil
  | cons b bs ih =>
    cases bs with
    | nil => exact List.isChain_singleton _
    | cons c bs => exact List.isChain_cons_cons.2 ⟨⟨rfl, rfl⟩, ih b.addr⟩

theorem views_coalesced (h : Coalesced bs) (prev : Nat) :
    (views prev bs).IsChain fun v w => ¬ (v.free ≠ 0 ∧ w.free ≠ 0) := by
  induction bs generalizing prev with
  | nil => exact .nil
  | cons b bs ih =>
    cases bs with
    | nil => exact List.isChain_singleton _
    | cons c bs =>
      obtain ⟨hbc, hc⟩ := List.isChain_cons_cons.1 h
      refine List.isChain_cons_cons.2 ⟨?_, ih hc b.addr⟩
      revert hbc
      cases b.free <;> cases c.free <;> simp

theorem views_last (hne : bs ≠ []) (prev : Nat) :
    ∃ v ∈ (views prev bs).getLast?, v.next = 0 := by
  induction bs generalizing prev with
  | nil => exact (hne rfl).elim
  | cons b bs ih =>
    cases bs with
    | nil => exact ⟨_, rfl, rfl⟩
    | cons c bs =>
      obtain ⟨v, hv, he⟩ := ih (by simp) b.addr
      exact ⟨v, by simpa [views] using hv, he⟩

theorem HeapRep.tiled (h : HeapRep L s bs) : HeapTiled L s := by
  have hne : bs ≠ [] := by
    rintro rfl
    have ht := h.arena.tiles
    simp only [Tiles, Layout.heapEnd] at ht
    omega
  have hb := h.blockList_eq
  refine ⟨h.head, ?_, ?_, ?_, ?_, ?_, ?_, ?_, ?_⟩ <;> rw [hb]
  · intro v hv
    cases bs with
    | nil => cases hv
    | cons b bs =>
      cases hv
      exact ⟨h.arena.tiles.1, rfl⟩
  · exact views_last hne 0
  · intro v hv
    obtain ⟨b, -, -, hm, -, -⟩ := mem_views hv
    exact hm
  · intro v hv
    obtain ⟨b, hmem, -, -, hs, -⟩ := mem_views hv
    rw [hs]
    exact ⟨h.arena.whole b hmem, h.arena.least b hmem⟩
  · intro v hv
    obtain ⟨b, hmem, ha, -, hs, -⟩ := mem_views hv
    rw [ha, hs]
    exact (h.bounds hmem).2.1
  · intro v hv
    refine views_next h.arena.tiles ?_ hv
    intro b hmem
    have := h.bounds hmem
    omega
  · exact views_linked bs 0
  · exact views_coalesced h.arena.coalesced 0

/-- The live payloads, as the callers see them. -/
structure LivePayloads (L : Layout) (c : Client) : Prop where
  aligned : ∀ p, (c.live p).isSome → p % 16 = 0
  inside : ∀ p, (c.live p).isSome → L.gHeap ≤ p ∧ p + payloadCapacity c.heap p ≤ L.heapEnd
  disjoint : ∀ p q, (c.live p).isSome → (c.live q).isSome → p ≠ q →
    p + payloadCapacity c.heap p ≤ q ∨ q + payloadCapacity c.heap q ≤ p
  enough : ∀ p n, c.live p = some n → n ≤ payloadCapacity c.heap p
  exact : ∀ p, (c.live p).isSome ↔
    ∃ v ∈ blockList c.heap, v.free = 0 ∧ p = v.addr + 32 ∧ payloadCapacity c.heap p + 32 = v.size

/-- The heap is in order and the pointers its callers hold are its used blocks. -/
def Sound (L : Layout) (c : Client) : Prop := ∃ bs, HeapRep L c.heap bs ∧ Holds c.live bs

theorem Holds.block (h : Holds live bs) (hp : (live p).isSome) :
    ∃ b ∈ bs, b.free = false ∧ p = b.addr + 32 := by
  obtain ⟨n, hn⟩ := Option.isSome_iff_exists.1 hp
  obtain ⟨b, hb, hf, he, -⟩ := h.sound p n hn
  exact ⟨b, hb, hf, he⟩

theorem HeapRep.aligned (h : HeapRep L s bs) (hb : b ∈ bs) : b.addr % 16 = 0 := by
  have hal := L.heap_aligned
  have key : ∀ (bs : List Block) (lo hi : Nat), Tiles lo bs hi → lo % 16 = 0 →
      (∀ b ∈ bs, b.size % 16 = 0) → ∀ b ∈ bs, b.addr % 16 = 0 := by
    intro bs
    induction bs with
    | nil => simp
    | cons c bs ih =>
      intro lo hi ht hlo hs b hb
      obtain ⟨hc, ht⟩ := ht
      have hcs := hs c (by simp)
      rcases List.mem_cons.1 hb with rfl | hb
      · rw [hc]
        exact hlo
      · exact ih _ hi ht (by omega) (fun d hd => hs d (by simp [hd])) b hb
  exact key bs _ _ h.arena.tiles hal h.arena.whole b hb

theorem HeapRep.livePayloads (h : HeapRep L c.heap bs) (hh : Holds c.live bs) :
    LivePayloads L c := by
  refine ⟨?_, ?_, ?_, ?_, ?_⟩
  · intro p hp
    obtain ⟨b, hb, -, rfl⟩ := hh.block hp
    have := h.aligned hb
    omega
  · intro p hp
    obtain ⟨b, hb, -, rfl⟩ := hh.block hp
    have := h.bounds hb
    rw [h.capacity_eq hb]
    omega
  · intro p q hp hq hne
    obtain ⟨b, hb, -, rfl⟩ := hh.block hp
    obtain ⟨d, hd, -, rfl⟩ := hh.block hq
    have hbd : b ≠ d := by
      rintro rfl
      exact hne rfl
    have h₁ := h.arena.tiles.apart hb hd hbd
    have h₂ := h.bounds hb
    have h₃ := h.bounds hd
    rw [h.capacity_eq hb, h.capacity_eq hd]
    omega
  · intro p n hn
    obtain ⟨b, hb, -, rfl, hle⟩ := hh.sound p n hn
    rw [h.capacity_eq hb]
    omega
  · intro p
    rw [h.blockList_eq]
    constructor
    · intro hp
      obtain ⟨b, hb, hf, rfl⟩ := hh.block hp
      obtain ⟨v, hv, ha, hs, hvf⟩ := views_mem 0 hb
      have := h.bounds hb
      refine ⟨v, hv, by rw [hvf, hf]; rfl, by rw [ha], ?_⟩
      rw [h.capacity_eq hb, hs]
      omega
    · rintro ⟨v, hv, hf, rfl, -⟩
      obtain ⟨b, hb, ha, -, -, hbf⟩ := mem_views hv
      rw [ha]
      apply hh.complete b hb
      rw [hf] at hbf
      by_contra hne
      simp [hne] at hbf

/-- A request that the code can add its header to without wrapping round; `kcalloc` refuses a
product of 33 bits or more by its own test, and a heap without free blocks refuses everything. -/
def HeapCall.Fits (s : MemoryState) (call : HeapCall) : Prop :=
  call.request ≤ 4294967248 ∨ 4294967296 ≤ call.request ∨ ∀ v ∈ blockList s, v.free = 0

theorem kmalloc_full (h : HeapRep L s bs) (hf : ∀ b ∈ bs, b.free = false) :
    kmalloc L s n = some (0, s) := by
  rcases Nat.eq_zero_or_pos n with rfl | hn
  · rfl
  rcases kmalloc_eq h (n := n) (by omega) with ⟨-, he⟩ | ⟨pre, c, post, hfit, -⟩
  · exact he
  · have hc := hf c (by simp [hfit.split])
    rw [hfit.free] at hc
    cases hc

theorem answers_of_fits (h : HeapRep L s bs) (hn : n < 4294967296)
    (hfit : (HeapCall.kmalloc n).Fits s) : Answers L s bs n := by
  rcases hfit with hle | hge | hfull
  · exact kmalloc_answers h hle
  · simp only [HeapCall.request] at hge
    omega
  · exact .inl (kmalloc_full h (h.no_free_iff.1 hfull))

theorem kcalloc_fits (h : HeapRep L s bs) (hfit : (HeapCall.kcalloc count size).Fits s) :
    kcalloc L s count size = some (0, s) ∨
      ∃ p s' bs', kcalloc L s count size = some (p, s') ∧ p ≠ 0 ∧
        Granted L s bs (count * size) p s' bs' ∧ ∀ k, k < count * size → s'.mem (p + k) = 0 := by
  by_cases hov : 4294967296 ≤ count * size
  · exact .inl (kcalloc_of_overflow L s hov)
  · exact kcalloc_cases h (by omega) (answers_of_fits h (by omega) hfit)

theorem Holds.of_null (h : Holds live bs) : Holds (Function.update live 0 none) bs := by
  have he : Function.update live 0 none = live := by
    rw [← h.zero, Function.update_eq_self]
  rwa [he]

/-- A block that stays where it is may be recorded with a new size. -/
theorem Holds.resize (h : Holds live bs) (hb : b ∈ bs) (hf : b.free = false)
    (hle : n + 32 ≤ b.size) :
    Holds (Function.update (Function.update live (b.addr + 32) none) (b.addr + 32) (some n))
      bs := by
  refine ⟨?_, ?_⟩
  · intro q k hk
    rw [Function.update_apply] at hk
    split at hk
    · next hq =>
      cases hk
      exact ⟨b, hb, hf, hq, hle⟩
    · rw [Function.update_of_ne (by assumption)] at hk
      exact h.sound q k hk
  · intro d hd hdf
    rw [Function.update_apply]
    split
    · rfl
    · rw [Function.update_of_ne (by assumption)]
      exact h.complete d hd hdf

/-- The step of `krealloc` on a live pointer. -/
theorem Sound.krealloc_live (hrep : HeapRep L s bs) (hh : Holds live bs) (hb : b ∈ bs)
    (hf : b.free = false) (hn : n < 4294967296)
    (hfit : (HeapCall.krealloc (b.addr + 32) n).Fits s) :
    ∃ p s', krealloc L s (b.addr + 32) n = some (p, s') ∧
      Sound L ⟨s', (HeapCall.krealloc (b.addr + 32) n).track live p⟩ := by
  have hne : b.addr + 32 ≠ 0 := by omega
  rcases Nat.eq_zero_or_pos n with rfl | hpos
  · obtain ⟨bs', r⟩ := kfree_cases hrep hb
    refine ⟨0, kfree s (b.addr + 32), ?_, bs', r.rep, ?_⟩
    · simp [krealloc]
    · simpa [HeapCall.track] using r.holds _ hh
  · have hz : ¬ (b.addr + 32 ≠ 0 ∧ n = 0) := by omega
    simp only [HeapCall.track, if_neg hz]
    rcases krealloc_cases hrep hb hf hpos (answers_of_fits hrep hn hfit) with
      ⟨hle, he⟩ | he | ⟨p, s₁, bs₁, s', bs', he, hp, hpb, -, g, r, -⟩
    · have hbb := hrep.bounds hb
      refine ⟨_, _, he, bs, hrep, ?_⟩
      simp only [if_neg hne]
      exact hh.resize hb hf (by omega)
    · exact ⟨0, _, he, bs, hrep, hh⟩
    · refine ⟨p, s', he, bs', r.rep, ?_⟩
      simp only [if_neg hp]
      rw [Function.update_comm hpb.symm]
      exact r.holds _ (g.holds _ hh)

/-- One call: it returns, and the heap is in order again. -/
theorem Sound.step {call : HeapCall} (h : Sound L c) (ha : call.Allowed c.live)
    (hfit : call.Fits c.heap) :
    ∃ p s', call.run L c.heap = some (p, s') ∧ Sound L ⟨s', call.track c.live p⟩ := by
  obtain ⟨bs, hrep, hh⟩ := h
  cases call with
  | kmalloc n =>
    rcases answers_of_fits hrep ha hfit with he | ⟨p, s', bs', he, hp, g⟩
    · exact ⟨0, _, he, bs, hrep, hh⟩
    · refine ⟨p, s', he, bs', g.rep, ?_⟩
      simp only [HeapCall.track, if_neg hp]
      exact g.holds _ hh
  | kcalloc count n =>
    rcases kcalloc_fits hrep hfit with he | ⟨p, s', bs', he, hp, g, -⟩
    · exact ⟨0, _, he, bs, hrep, hh⟩
    · refine ⟨p, s', he, bs', g.rep, ?_⟩
      simp only [HeapCall.track, if_neg hp]
      exact g.holds _ hh
  | krealloc ptr n =>
    obtain ⟨hptr, hn⟩ := ha
    rcases hptr with rfl | hptr
    · -- `krealloc (NULL, n)` is `kmalloc (n)`
      have hrun : krealloc L c.heap 0 n = kmalloc L c.heap n := rfl
      have hnull : ¬ ((0 : Nat) ≠ 0 ∧ n = 0) := by simp
      simp only [HeapCall.run, HeapCall.track, hrun, if_neg hnull]
      rcases answers_of_fits hrep hn hfit with he | ⟨p, s', bs', he, hp, g⟩
      · exact ⟨0, _, he, bs, hrep, hh⟩
      · refine ⟨p, s', he, bs', g.rep, ?_⟩
        simp only [if_neg hp]
        exact g.holds _ hh.of_null
    · obtain ⟨b, hb, hf, rfl⟩ := hh.block hptr
      exact Sound.krealloc_live hrep hh hb hf hn hfit
  | kfree ptr =>
    rcases ha with rfl | hptr
    · exact ⟨0, _, rfl, bs, hrep, hh.of_null⟩
    · obtain ⟨b, hb, hf, rfl⟩ := hh.block hptr
      obtain ⟨bs', r⟩ := kfree_cases hrep hb
      exact ⟨0, _, rfl, bs', r.rep, r.holds _ hh⟩
  | write addr value =>
    obtain ⟨p, n, hp, hl, hu⟩ := ha
    obtain ⟨b, hb, hf, rfl, hle⟩ := hh.sound p n hp
    refine ⟨0, _, rfl, bs, ?_, hh⟩
    apply hrep.of_sameOn
    rintro x ⟨d, hd, hdl, hdu⟩
    apply Function.update_of_ne
    rintro rfl
    have := hrep.client_off_header (.inr (.inr ⟨b, hb, hf, hl, by omega⟩)) hd
    omega

/-- The heap is in order after every run of calls that fit. -/
theorem Reachable.sound (h : Reachable L limit c)
    (hlim : ∀ s call, limit s call → HeapCall.Fits s call) : Sound L c := by
  induction h with
  | init hs =>
    refine ⟨_, heapInit_rep L hs, ?_, ?_⟩
    · intro p n hn
      cases hn
    · intro b hb hf
      rw [List.mem_singleton] at hb
      subst hb
      cases hf
  | step hr ha hl he ih =>
    obtain ⟨p, s', he', hs⟩ := Sound.step ih ha (hlim _ _ hl)
    rw [he] at he'
    cases he'
    exact hs

end KernelCustom
