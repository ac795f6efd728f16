import KernelCustom.HeapContract

namespace KernelCustom
open Word32 ByteStore BlockTiling
set_option autoImplicit true

/-- Requests of at most `HEAP_SIZE` bytes. -/
def WithinHeap (_ : MemoryState) (call : HeapCall) : Prop := call.request ≤ heapSize

theorem WithinHeap.fits {call : HeapCall} (h : WithinHeap s call) : call.Fits s := by
  have hs : heapSize = 524288 := rfl
  simp only [WithinHeap] at h
  exact .inl (by omega)

/-- The zeroed static variables the kernel starts with. -/
def bootMemory : MemoryState where
  mem := fun _ => 0
  gHeapHead := 0
  gHeapReady := false
  gTotalMemoryBytes := 0
  gTotalFrames := 0
  gFrameBitmap := fun _ => 0
  gPagingReady := false

/-- In every run the block list tiles the heap, the live payloads are the used blocks, and the
next call returns. -/
theorem heap_tiled_in_every_run (h : Reachable L WithinHeap c) :
    HeapTiled L c.heap ∧ LivePayloads L c ∧
      ∀ call : HeapCall, call.Allowed c.live → WithinHeap c.heap call →
        ∃ p s', call.run L c.heap = some (p, s') := by
  have hsound := h.sound fun _ _ hl => hl.fits
  obtain ⟨bs, hrep, hh⟩ := hsound
  refine ⟨hrep.tiled, hrep.livePayloads hh, ?_⟩
  intro call ha hl
  obtain ⟨p, s', he, -⟩ := Sound.step ⟨bs, hrep, hh⟩ ha hl.fits
  exact ⟨p, s', he⟩

theorem heap_tiled_after_boot_and_kmalloc :
    ∃ p s', kmalloc Layout.sample (heapInit Layout.sample bootMemory) 100 = some (p, s') ∧
      HeapTiled Layout.sample s' ∧
      LivePayloads Layout.sample ⟨s', (HeapCall.kmalloc 100).track (fun _ => none) p⟩ := by
  have hsome : (kmalloc Layout.sample (heapInit Layout.sample bootMemory) 100).isSome := by
    decide +kernel
  obtain ⟨⟨p, s'⟩, he⟩ := Option.isSome_iff_exists.1 hsome
  have hr : Reachable Layout.sample WithinHeap
      ⟨s', (HeapCall.kmalloc 100).track (fun _ => none) p⟩ :=
    .step (c := ⟨heapInit Layout.sample bootMemory, fun _ => none⟩) (.init rfl)
      (by decide : 100 < 4294967296) (by decide : 100 ≤ heapSize) he
  have ht := heap_tiled_in_every_run hr
  exact ⟨p, s', he, ht.1, ht.2.1⟩

/-- The calls that ask for memory: `kmalloc` of something, `kcalloc`, `krealloc` of a live
pointer. -/
def HeapCall.Allocates (live : Live) : HeapCall → Prop
  | kmalloc size => 0 < size
  | kcalloc _ _ => True
  | krealloc ptr _ => (live ptr).isSome
  | kfree _ => False
  | write _ _ => False

/-- A call returns `NULL` or a payload inside the heap that holds what was asked for, zeroed by
`kcalloc`; a request too large for the heap returns `NULL` and leaves the block list alone. -/
def HeapCall.Served (L : Layout) (s : MemoryState) (call : HeapCall) : Prop :=
  ∃ p s', call.run L s = some (p, s') ∧
    (p = 0 ∨ L.gHeap ≤ p ∧ p + payloadCapacity s' p ≤ L.heapEnd ∧
      call.request ≤ payloadCapacity s' p ∧
      ∀ count size, call = kcalloc count size → ∀ k, k < count * size → s'.mem (p + k) = 0) ∧
    (heapSize - 32 < call.request → p = 0 ∧ blockList s' = blockList s)

/-- A used block that holds `n` bytes is what a request for `n` bytes should get. -/
theorem HeapRep.served (h : HeapRep L s bs) (hb : b ∈ bs) (hn : n + 32 ≤ b.size) :
    L.gHeap ≤ b.addr + 32 ∧ b.addr + 32 + payloadCapacity s (b.addr + 32) ≤ L.heapEnd ∧
      n ≤ payloadCapacity s (b.addr + 32) ∧ n ≤ heapSize - 32 := by
  have hbb := h.bounds hb
  have hh : heapSize = 524288 := rfl
  simp only [Layout.heapEnd] at hbb ⊢
  rw [h.capacity_eq hb]
  omega

theorem Granted.served (g : Granted L s bs n p s' bs') :
    L.gHeap ≤ p ∧ p + payloadCapacity s' p ≤ L.heapEnd ∧ n ≤ payloadCapacity s' p ∧
      n ≤ heapSize - 32 := by
  obtain ⟨b, hb, c, -, hf, rfl, hs, -⟩ := g.fresh
  exact g.rep.served hb hs

/-- The three ways in which a wrapped request can look: it always fits in the first free block. -/
theorem wrapped_request (h : 4294967248 < n) (hn : n < 4294967296) :
    wrap (alignUp n 16 + headerSize) ≤ 32 := by
  rw [alignUp_sixteen, headerSize_eq, wrap]
  omega

/-- A request that wraps round is granted by any heap with a free block. -/
theorem kmalloc_of_wrapped (h : HeapRep L s bs) (hb : b ∈ bs) (hf : b.free = true)
    (hl : 4294967248 < n) (hn : n < 4294967296) :
    ∃ p s', kmalloc L s n = some (p, s') ∧ p ≠ 0 := by
  have hw := wrapped_request hl hn
  rcases kmalloc_eq h (n := n) (by omega) with ⟨hnone, -⟩ | ⟨pre, c, post, -, he⟩
  · have := h.bounds hb
    exact (hnone b hb ⟨hf, by omega⟩).elim
  · exact ⟨_, _, he, by omega⟩

theorem served_of_fits {call : HeapCall} (h : Sound L c) (ha : call.Allowed c.live)
    (hk : call.Allocates c.live) (hfit : call.Fits c.heap) : call.Served L c.heap := by
  obtain ⟨bs, hrep, hh⟩ := h
  cases call with
  | kmalloc n =>
    rcases answers_of_fits hrep ha hfit with he | ⟨p, s', bs', he, hp, g⟩
    · exact ⟨0, _, he, .inl rfl, fun _ => ⟨rfl, rfl⟩⟩
    · obtain ⟨h₁, h₂, h₃, h₄⟩ := g.served
      refine ⟨p, s', he, .inr ⟨h₁, h₂, h₃, by simp⟩, fun hlt => ?_⟩
      simp only [HeapCall.request] at hlt
      omega
  | kcalloc count n =>
    rcases kcalloc_fits hrep hfit with he | ⟨p, s', bs', he, hp, g, hz⟩
    · exact ⟨0, _, he, .inl rfl, fun _ => ⟨rfl, rfl⟩⟩
    · obtain ⟨h₁, h₂, h₃, h₄⟩ := g.served
      refine ⟨p, s', he, .inr ⟨h₁, h₂, h₃, ?_⟩, fun hlt => ?_⟩
      · rintro _ _ ⟨rfl, rfl⟩
        exact hz
      · simp only [HeapCall.request] at hlt
        omega
  | krealloc ptr n =>
    obtain ⟨b, hb, hf, rfl⟩ := hh.block hk
    rcases Nat.eq_zero_or_pos n with rfl | hpos
    · refine ⟨0, kfree c.heap (b.addr + 32), by simp [HeapCall.run, krealloc], .inl rfl, ?_⟩
      intro hlt
      simp [HeapCall.request] at hlt
    · rcases krealloc_cases hrep hb hf hpos (answers_of_fits hrep ha.2 hfit) with
        ⟨hle, he⟩ | he | ⟨p, s₁, bs₁, s', bs', he, hp, hpb, -, g, r, -⟩
      · obtain ⟨h₁, h₂, h₃, h₄⟩ := hrep.served hb (n := n) (by omega)
        refine ⟨_, _, he, .inr ⟨h₁, h₂, h₃, by simp⟩, fun hlt => ?_⟩
        simp only [HeapCall.request] at hlt
        omega
      · exact ⟨0, _, he, .inl rfl, fun _ => ⟨rfl, rfl⟩⟩
      · have hlive := r.holds _ (g.holds _ hh)
        obtain ⟨d, hd, -, rfl, hdn⟩ := hlive.sound p n (by
          rw [Function.update_of_ne hpb, Function.update_self])
        obtain ⟨h₁, h₂, h₃, h₄⟩ := r.rep.served hd hdn
        refine ⟨_, s', he, .inr ⟨h₁, h₂, h₃, by simp⟩, fun hlt => ?_⟩
        simp only [HeapCall.request] at hlt
        omega
  | kfree ptr => exact hk.elim
  | write addr value => exact hk.elim

/-- A request that wraps round gets a pointer although no heap could hold it. -/
theorem not_served_of_not_fits {call : HeapCall} (h : Sound L c) (ha : call.Allowed c.live)
    (hk : call.Allocates c.live) (hfit : ¬ call.Fits c.heap) : ¬ call.Served L c.heap := by
  obtain ⟨bs, hrep, hh⟩ := h
  have hheap : heapSize = 524288 := rfl
  simp only [HeapCall.Fits, not_or, hrep.no_free_iff] at hfit
  obtain ⟨hlow, hhigh, hfree⟩ := hfit
  obtain ⟨b, hb, hbf⟩ : ∃ b ∈ bs, b.free = true := by
    by_contra hne
    exact hfree fun b hb => by
      by_contra hbf
      exact hne ⟨b, hb, by simpa using hbf⟩
  -- whatever pointer comes back, a request of this size has to be answered with `NULL`
  suffices hgot : ∃ p s', call.run L c.heap = some (p, s') ∧ p ≠ 0 by
    rintro ⟨p, s', he, -, hlarge⟩
    obtain ⟨p', s'', he', hp⟩ := hgot
    rw [he] at he'
    cases he'
    exact hp (hlarge (by omega)).1
  cases call with
  | kmalloc n =>
    simp only [HeapCall.request] at hlow hhigh
    exact kmalloc_of_wrapped hrep hb hbf (by omega) (by omega)
  | kcalloc count n =>
    simp only [HeapCall.request] at hlow hhigh
    obtain ⟨p, s', he, hp⟩ := kmalloc_of_wrapped (n := count * n) hrep hb hbf (by omega) (by omega)
    refine ⟨p, { s' with mem := memset s'.mem p 0 (count * n) }, ?_, hp⟩
    rw [HeapCall.run, kcalloc_of_lt L _ (by omega), he, Option.map_some]
    simp only [if_neg hp]
  | krealloc ptr n =>
    simp only [HeapCall.request] at hlow hhigh
    obtain ⟨p, s', he, hp⟩ := kmalloc_of_wrapped (n := n) hrep hb hbf (by omega) (by omega)
    obtain ⟨d, hd, hdf, rfl⟩ := hh.block hk
    have hdb := hrep.bounds hd
    obtain ⟨hmagic, hsize⟩ := hrep.header_of_mem hd
    have hold : sub d.size headerSize = d.size - 32 := by
      rw [headerSize_eq, sub_of_le (by omega) (by omega)]
    have hmg : ¬ blockMagic c.heap.mem d.addr ≠ blockMagicWord := not_not.2 hmagic
    refine ⟨p, kfree { s' with mem := memcpy s'.mem p (d.addr + 32) (d.size - 32) } (d.addr + 32),
      ?_, hp⟩
    have hptr : d.addr + 32 ≠ 0 := by omega
    have hn : n ≠ 0 := by omega
    have hblock : payloadBlock (d.addr + 32) = d.addr := payloadBlock_eq (by omega)
    have hgrow : ¬ n ≤ d.size - 32 := by omega
    simp only [HeapCall.run, krealloc, if_neg hptr, if_neg hn, hblock, if_neg hmg, hsize, hold,
      if_neg hgrow, he, Option.map_some, if_neg hp]
  | kfree ptr => exact hk.elim
  | write addr value => exact hk.elim

/-- In every run of calls that fit, a call is served exactly when it fits too. -/
theorem allocation_served_iff_fits {call : HeapCall} (h : Reachable L (fun s call => call.Fits s) c)
    (ha : call.Allowed c.live) (hk : call.Allocates c.live) :
    call.Served L c.heap ↔ call.Fits c.heap := by
  have hs : Sound L c := h.sound fun _ _ hl => hl
  constructor
  · intro hserved
    by_contra hfit
    exact not_served_of_not_fits hs ha hk hfit hserved
  · exact served_of_fits hs ha hk

theorem allocation_served_of_one_page :
    (HeapCall.kmalloc 4096).Served Layout.sample (heapInit Layout.sample bootMemory) := by
  have ha : (HeapCall.kmalloc 4096).Allowed (fun _ => none) := (by decide : 4096 < 4294967296)
  have hk : (HeapCall.kmalloc 4096).Allocates (fun _ => none) := (by decide : 0 < 4096)
  have hfit : (HeapCall.kmalloc 4096).Fits (heapInit Layout.sample bootMemory) :=
    .inl (by decide : 4096 ≤ 4294967248)
  exact (allocation_served_iff_fits
    (c := ⟨heapInit Layout.sample bootMemory, fun _ => none⟩) (.init rfl) ha hk).2 hfit

/-- `kmalloc (0xFFFFFFFF)` on the fresh heap returns a pointer to a block of no payload bytes. -/
theorem kmalloc_wraps_on_fresh_heap :
    Reachable Layout.sample WithinHeap ⟨heapInit Layout.sample bootMemory, fun _ => none⟩ ∧
    (kmalloc Layout.sample (heapInit Layout.sample bootMemory) 0xFFFFFFFF).map
      (fun r => (r.1, payloadCapacity r.2 r.1)) = some (0x00110020, 0) ∧
    ¬ (HeapCall.kmalloc 0xFFFFFFFF).Served Layout.sample (heapInit Layout.sample bootMemory) := by
  have he : (kmalloc Layout.sample (heapInit Layout.sample bootMemory) 0xFFFFFFFF).map
      (fun r => (r.1, payloadCapacity r.2 r.1)) = some (0x00110020, 0) := by decide +kernel
  refine ⟨.init rfl, he, ?_⟩
  rintro ⟨p, s', hrun, -, hlarge⟩
  have hp := (hlarge (by decide)).1
  have hrun' : kmalloc Layout.sample (heapInit Layout.sample bootMemory) 0xFFFFFFFF =
      some (p, s') := hrun
  rw [hrun', hp] at he
  simp at he

/-- The payload that a call frees or moves. -/
def HeapCall.target : HeapCall → Nat
  | kmalloc _ => 0
  | kcalloc _ _ => 0
  | krealloc ptr _ => ptr
  | kfree ptr => ptr
  | write _ _ => 0

/-- The client behind a call; a call that does not return leaves it as it was. -/
def Client.call (L : Layout) (c : Client) (call : HeapCall) : Client :=
  match call.run L c.heap with
  | some (p, s') => ⟨s', call.track c.live p⟩
  | none => c

theorem Client.call_kmalloc {c : Client} (h : (kmalloc L c.heap n).map Prod.fst = some p)
    (hp : p ≠ 0) : (c.call L (.kmalloc n)).live = Function.update c.live p (some n) := by
  obtain ⟨⟨q, s'⟩, he, rfl⟩ := Option.map_eq_some_iff.1 h
  have hrun : (HeapCall.kmalloc n).run L c.heap = some (q, s') := he
  rw [Client.call, hrun]
  exact if_neg hp

theorem Client.call_kfree (L : Layout) (c : Client) (ptr : Nat) :
    (c.call L (.kfree ptr)).live = Function.update c.live ptr none := rfl

theorem Reachable.call {call : HeapCall} (h : Reachable L WithinHeap c)
    (ha : call.Allowed c.live) (hl : WithinHeap c.heap call) :
    Reachable L WithinHeap (c.call L call) := by
  obtain ⟨p, s', he, -⟩ := (h.sound fun _ _ hl => hl.fits).step ha hl.fits
  rw [Client.call, he]
  exact .step h ha hl he

def bootClient : Client := ⟨heapInit Layout.sample bootMemory, fun _ => none⟩

/-- Two payloads, of 64 and of 32 bytes, the first beginning with `A` and the second with `B`. -/
def twoPayloads : Client :=
  (((bootClient.call Layout.sample (.kmalloc 64)).call Layout.sample (.kmalloc 32)).call
    Layout.sample (.write 0x00110020 0x41)).call Layout.sample (.write 0x00110080 0x42)

theorem twoPayloads_reachable : Reachable Layout.sample WithinHeap twoPayloads := by
  refine .call (.call (.call (.call (.init rfl) ?_ ?_) ?_ ?_) ?_ ?_) ?_ ?_
  · exact (by decide : 64 < 4294967296)
  · exact (by decide : 64 ≤ heapSize)
  · exact (by decide : 32 < 4294967296)
  · exact (by decide : 32 ≤ heapSize)
  · exact ⟨0x00110020, 64, by decide +kernel, by decide, by decide⟩
  · exact Nat.zero_le _
  · exact ⟨0x00110080, 32, by decide +kernel, by decide, by decide⟩
  · exact Nat.zero_le _

/-- Freeing a fresh allocation restores the block list, and a heap without live pointers is the
single block that `heap_init` made. -/
theorem heap_given_back (h : Reachable L WithinHeap c) :
    (∀ n p s', 1 ≤ n → n ≤ heapSize → kmalloc L c.heap n = some (p, s') → p ≠ 0 →
      blockList (kfree s' p) = blockList c.heap) ∧
    ((∀ p, c.live p = none) →
      blockList c.heap = [⟨L.gHeap, blockMagicWord, heapSize, 1, 0, 0⟩]) := by
  have hheap : heapSize = 524288 := rfl
  obtain ⟨bs, hrep, hh⟩ := h.sound fun _ _ hl => hl.fits
  refine ⟨?_, ?_⟩
  · intro n p s' hn hle he hp
    rcases kmalloc_spec hrep (n := n) (by omega) (by omega) with
      ⟨-, he'⟩ | ⟨pre, b, post, s'', hf, he', hrep', -, -⟩
    · rw [he] at he'
      cases he'
      exact (hp rfl).elim
    · rw [he] at he'
      cases he'
      obtain ⟨rfl, -, hb, hs⟩ := hf
      have hfree := (kfree_spec hrep').1
      rw [release_taken hrep.arena.coalesced hb hs, taken_addr] at hfree
      rw [hfree.blockList_eq, hrep.blockList_eq]
  · intro hnone
    have hfree : ∀ b ∈ bs, b.free = true := by
      intro b hb
      by_contra hbf
      have := hh.complete b hb (by simpa using hbf)
      rw [hnone] at this
      cases this
    have hlt : L.gHeap < L.heapEnd := by
      simp only [Layout.heapEnd]
      omega
    have hone := hrep.arena.eq_single hlt hfree
    have hsize : L.heapEnd - L.gHeap = 524288 := by
      simp only [Layout.heapEnd]
      omega
    rw [hrep.blockList_eq, hone, hsize]
    rfl

/-- Three payloads, all freed again, the second one first. -/
def threeFreed : Client :=
  (((((bootClient.call Layout.sample (.kmalloc 64)).call Layout.sample (.kmalloc 100)).call
    Layout.sample (.kmalloc 32)).call Layout.sample (.kfree 0x00110080)).call Layout.sample
    (.kfree 0x00110110)).call Layout.sample (.kfree 0x00110020)

theorem threeFreed_reachable : Reachable Layout.sample WithinHeap threeFreed := by
  refine .call (.call (.call (.call (.call (.call (.init rfl) ?_ ?_) ?_ ?_) ?_ ?_) ?_ ?_) ?_ ?_)
    ?_ ?_
  · exact (by decide : 64 < 4294967296)
  · exact (by decide : 64 ≤ heapSize)
  · exact (by decide : 100 < 4294967296)
  · exact (by decide : 100 ≤ heapSize)
  · exact (by decide : 32 < 4294967296)
  · exact (by decide : 32 ≤ heapSize)
  · exact .inr (by decide +kernel)
  · exact Nat.zero_le _
  · exact .inr (by decide +kernel)
  · exact Nat.zero_le _
  · exact .inr (by decide +kernel)
  · exact Nat.zero_le _

theorem threeFreed_live (p : Nat) : threeFreed.live p = none := by
  rw [threeFreed, Client.call_kfree, Client.call_kfree, Client.call_kfree,
    Client.call_kmalloc (p := 0x00110110) (by decide +kernel) (by decide),
    Client.call_kmalloc (p := 0x00110080) (by decide +kernel) (by decide),
    Client.call_kmalloc (p := 0x00110020) (by decide +kernel) (by decide)]
  simp only [Function.update_apply]
  split_ifs <;> rfl

theorem heap_given_back_after_three :
    (∃ p s', kmalloc Layout.sample twoPayloads.heap 48 = some (p, s') ∧ p ≠ 0 ∧
      blockList (kfree s' p) = blockList twoPayloads.heap) ∧
    blockList threeFreed.heap = [⟨0x00110000, blockMagicWord, heapSize, 1, 0, 0⟩] := by
  have hp : (kmalloc Layout.sample twoPayloads.heap 48).map Prod.fst = some 0x001100C0 := by
    decide +kernel
  obtain ⟨⟨p, s'⟩, he, hp⟩ := Option.map_eq_some_iff.1 hp
  dsimp only at hp
  have hne : p ≠ 0 := by omega
  refine ⟨⟨p, s', he, hne, ?_⟩, (heap_given_back threeFreed_reachable).2 threeFreed_live⟩
  exact (heap_given_back twoPayloads_reachable).1 48 p s' (by decide) (by decide) he hne

end KernelCustom
