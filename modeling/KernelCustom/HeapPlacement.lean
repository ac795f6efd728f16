import KernelCustom.HeapGuarantees

namespace KernelCustom
open Word32 ByteStore BlockTiling
set_option autoImplicit true

/-- A contiguous stretch of `g_heap` outside all live blocks, their headers included. -/
structure Stretch (L : Layout) (c : Client) (lo hi : Nat) : Prop where
  start : L.gHeap ≤ lo
  nonempty : lo < hi
  stop : hi ≤ L.heapEnd
  off : ∀ p, (c.live p).isSome → p + payloadCapacity c.heap p ≤ lo ∨ hi ≤ p - headerSize

structure MaximalStretch (L : Layout) (c : Client) (lo hi : Nat) : Prop where
  stretch : Stretch L c lo hi
  maximal : ∀ lo' hi', Stretch L c lo' hi' → lo' ≤ lo → hi ≤ hi' → lo' = lo ∧ hi' = hi

/-- What is outside the live blocks is what the used blocks of the list leave vacant. -/
theorem HeapRep.stretch_iff (h : HeapRep L c.heap bs) (hh : Holds c.live bs) :
    Stretch L c lo hi ↔ Vacant L.gHeap L.heapEnd bs lo hi := by
  have hspan : ∀ b ∈ bs, b.addr + 32 + payloadCapacity c.heap (b.addr + 32) = b.addr + b.size ∧
      b.addr + 32 - headerSize = b.addr := by
    intro b hb
    have hbounds := h.bounds hb
    rw [h.capacity_eq hb, headerSize_eq]
    omega
  constructor
  · rintro ⟨hstart, hne, hstop, hoff⟩
    refine ⟨hstart, hne, hstop, fun b hb hused => ?_⟩
    have hlive := hoff (b.addr + 32) (hh.complete b hb hused)
    rwa [(hspan b hb).1, (hspan b hb).2] at hlive
  · rintro ⟨hstart, hne, hstop, hoff⟩
    refine ⟨hstart, hne, hstop, fun p hp => ?_⟩
    obtain ⟨b, hb, hused, rfl⟩ := hh.block hp
    rw [(hspan b hb).1, (hspan b hb).2]
    exact hoff b hb hused

theorem HeapRep.maximalStretch_iff (h : HeapRep L c.heap bs) (hh : Holds c.live bs) :
    MaximalStretch L c lo hi ↔
      ∃ b ∈ bs, b.free = true ∧ lo = b.addr ∧ hi = b.addr + b.size := by
  have hpos : ∀ b ∈ bs, 0 < b.size := by
    intro b hb
    have := h.bounds hb
    omega
  rw [← maximalVacant_iff h.arena.tiles h.arena.coalesced hpos]
  have hiff : ∀ a b, Stretch L c a b ↔ Vacant L.gHeap L.heapEnd bs a b :=
    fun _ _ => h.stretch_iff hh
  constructor
  · intro hm
    exact ⟨(hiff lo hi).1 hm.stretch, fun a b hv => hm.maximal a b ((hiff a b).2 hv)⟩
  · intro hm
    exact ⟨(hiff lo hi).2 hm.vacant, fun a b hs => hm.maximal a b ((hiff a b).1 hs)⟩

/-- `kmalloc` refuses exactly when no stretch is long enough, and else takes the start of the
lowest maximal one that is. -/
theorem kmalloc_complete_first_fit (h : Reachable L (fun s call => call.Fits s) c)
    (hpos : 1 ≤ n) (hn : n ≤ heapSize) :
    ∃ p s', kmalloc L c.heap n = some (p, s') ∧
      (p = 0 ↔ ∀ lo hi, Stretch L c lo hi →
        hi - lo < alignUp n heapAlign + alignUp sizeofHeapBlock heapAlign) ∧
      (p ≠ 0 → ∃ hi, MaximalStretch L c (p - headerSize) hi ∧
        alignUp n heapAlign + alignUp sizeofHeapBlock heapAlign ≤ hi - (p - headerSize) ∧
        ∀ lo' hi', MaximalStretch L c lo' hi' →
          alignUp n heapAlign + alignUp sizeofHeapBlock heapAlign ≤ hi' - lo' →
          p - headerSize ≤ lo') := by
  obtain ⟨bs, hrep, hh⟩ := h.sound fun _ _ hl => hl
  have hheap : heapSize = 524288 := rfl
  have hneed : alignUp n heapAlign + alignUp sizeofHeapBlock heapAlign = footprint n := by
    rw [footprint]
    exact congrArg (alignUp n 16 + ·) headerSize_eq
  have hstart : ∀ b : Block, b.addr + 32 - headerSize = b.addr := by
    intro b
    rw [headerSize_eq]
    omega
  rw [hneed]
  have hpositive : ∀ b ∈ bs, 0 < b.size := by
    intro b hb
    have := hrep.bounds hb
    omega
  rcases kmalloc_spec hrep hpos (by omega) with ⟨hnone, hk⟩ | ⟨pre, b, post, s', hfit, hk, -⟩
  · refine ⟨0, c.heap, hk, iff_of_true rfl fun lo hi hs => ?_, fun hne => (hne rfl).elim⟩
    obtain ⟨d, hd, hf, hlo, hhi⟩ :=
      ((hrep.stretch_iff hh).1 hs).within hrep.arena.tiles hrep.arena.coalesced hpositive
    by_contra hlong
    exact hnone d hd ⟨hf, by omega⟩
  · have hmem : b ∈ bs := by
      rw [hfit.split]
      exact List.mem_append_right pre List.mem_cons_self
    have hmax : MaximalStretch L c b.addr (b.addr + b.size) :=
      (hrep.maximalStretch_iff hh).2 ⟨b, hmem, hfit.free, rfl, rfl⟩
    have henough := hfit.enough
    refine ⟨b.addr + 32, s', hk, iff_of_false (by omega) fun hshort => ?_, fun _ => ?_⟩
    · have := hshort _ _ hmax.stretch
      omega
    · rw [hstart]
      refine ⟨_, hmax, by omega, fun lo' hi' hm hlong => ?_⟩
      obtain ⟨d, hd, hf, rfl, rfl⟩ := (hrep.maximalStretch_iff hh).1 hm
      exact hfit.lowest hrep.arena.tiles hd hf (by omega)

/-- Two payloads, the first freed again. -/
def firstFreed : Client :=
  ((bootClient.call Layout.sample (.kmalloc 64)).call Layout.sample (.kmalloc 100)).call
    Layout.sample (.kfree 0x00110020)

theorem firstFreed_reachable : Reachable Layout.sample WithinHeap firstFreed := by
  refine .call (.call (.call (.init rfl) ?_ ?_) ?_ ?_) ?_ ?_
  · exact (by decide : 64 < 4294967296)
  · exact (by decide : 64 ≤ heapSize)
  · exact (by decide : 100 < 4294967296)
  · exact (by decide : 100 ≤ heapSize)
  · exact .inr (by decide +kernel)
  · exact Nat.zero_le _

/-- The hole is too short for 100 bytes, so they go behind the live payload. -/
theorem kmalloc_complete_first_fit_behind_hole :
    ∃ p s', kmalloc Layout.sample firstFreed.heap 100 = some (p, s') ∧ p = 0x00110110 ∧
      (∃ hi, MaximalStretch Layout.sample firstFreed (p - headerSize) hi) ∧
      ∀ lo hi, MaximalStretch Layout.sample firstFreed lo hi → 144 ≤ hi - lo →
        p - headerSize ≤ lo := by
  have hreach : Reachable Layout.sample (fun s call => call.Fits s) firstFreed :=
    firstFreed_reachable.mono fun _ _ hl => hl.fits
  obtain ⟨p, s', hk, -, hplace⟩ :=
    kmalloc_complete_first_fit (n := 100) hreach (by decide) (by decide)
  have hp : p = 0x00110110 := by
    have haddr : (kmalloc Layout.sample firstFreed.heap 100).map Prod.fst = some 0x00110110 := by
      decide +kernel
    rw [hk] at haddr
    exact Option.some.inj haddr
  obtain ⟨hi, hmax, -, hlowest⟩ := hplace (by omega)
  exact ⟨p, s', hk, hp, ⟨hi, hmax⟩, hlowest⟩

end KernelCustom
