import KernelCustom.ElfGuarantees

namespace KernelCustom
open Word32 ByteStore BlockTiling
set_option autoImplicit true

/-- The states reached from `memory_init` by loading programs, each call under a condition. -/
inductive LoaderRun (L : Layout) (cond : Vfs → MemoryState → VfsNode → Prop) :
    MemoryState → Prop where
  | boot {s s' : MemoryState} {mbMagic mbInfoAddr : Nat} :
      s.gPagingReady = false → s.gHeapReady = false →
      memoryInit L s mbMagic mbInfoAddr = some s' → LoaderRun L cond s'
  | load {s : MemoryState} {node : Option VfsNode} {out : Option Nat} {r : Loaded} (V : Vfs) :
      LoaderRun L cond s → (∀ n, node = some n → cond V s n) →
      loadElfProgramFromVfs L V s node out = some r → LoaderRun L cond r.state

/-- The buffer is asked for without wrapping round, and the rounded size of each segment that is
placed ends inside the program area. -/
def Confining (L : Layout) (V : Vfs) (s : MemoryState) (node : VfsNode) : Prop :=
  (node.type = V.typeFile → (HeapCall.kmalloc node.size).Fits s) ∧
    (ImageRead L V s node → ∀ phdr ∈ segmentsOf node.size (V.image node), phdr.memsz ≠ 0 →
      phdr.vaddr + alignUp phdr.memsz pageSize ≤ userProgramBase + userProgramMaxSize)

/-- A heap in order, and a page map whose user pages are those of user programs. -/
structure Guarded (L : Layout) (s : MemoryState) : Prop where
  heap : ∃ bs, HeapRep L s bs
  pages : ∃ M, PageRep L s.mem M ∧ M.Confined

theorem Guarded.of_init (hs : s.gPagingReady = false) (hh : s.gHeapReady = false)
    (h : memoryInit L s mbMagic mbInfoAddr = some s') : Guarded L s' := by
  obtain ⟨hpages, hheap⟩ := memoryInit_spec hs hh h
  exact ⟨⟨_, hheap⟩, ⟨_, hpages, bootMap_confined _⟩⟩

/-- A segment whose rounded size ends inside the program area marks no page outside it. -/
theorem PageMap.Confined.markSegment {M : PageMap} (h : M.Confined) (ha : Accepted size phdr)
    (hend : phdr.memsz ≠ 0 →
      phdr.vaddr + alignUp phdr.memsz pageSize ≤ userProgramBase + userProgramMaxSize) :
    (M.markSegment phdr).Confined := by
  rw [PageMap.markSegment]
  split
  · next hne =>
    have hreg := ha.in_region
    have hle := hend hne
    simp only [userProgramBase, userProgramMaxSize] at hreg hle
    refine h.mark fun p _ hl hu => ?_
    simp only [markEnd, pageSize, alignUp_page, wrap] at hle hu
    simp only [UserAddress, userProgramBase, userProgramMaxSize]
    omega
  · exact h

theorem PageMap.Confined.marks {M : PageMap} {phdrs : List Phdr} (h : M.Confined)
    (ha : ∀ phdr ∈ phdrs, Accepted size phdr)
    (hend : ∀ phdr ∈ phdrs, phdr.memsz ≠ 0 →
      phdr.vaddr + alignUp phdr.memsz pageSize ≤ userProgramBase + userProgramMaxSize) :
    (phdrs.foldl PageMap.markSegment M).Confined := by
  induction phdrs generalizing M with
  | nil => exact h
  | cons q phdrs ih =>
    apply ih
    · exact h.markSegment (ha q List.mem_cons_self) (hend q List.mem_cons_self)
    · intro phdr hmem
      exact ha phdr (List.mem_cons_of_mem _ hmem)
    · intro phdr hmem
      exact hend phdr (List.mem_cons_of_mem _ hmem)

theorem Effect.guarded (e : Effect L s img phdrs s') (h : Guarded L s)
    (ha : ∀ phdr ∈ phdrs, Accepted size phdr)
    (hend : ∀ phdr ∈ phdrs, phdr.memsz ≠ 0 →
      phdr.vaddr + alignUp phdr.memsz pageSize ≤ userProgramBase + userProgramMaxSize) :
    Guarded L s' := by
  obtain ⟨M, hM, hconf⟩ := h.pages
  exact ⟨e.heap, ⟨_, e.pages M hM, hconf.marks ha hend⟩⟩

/-- One call that meets the condition keeps the user pages where they belong. -/
theorem Guarded.load (h : Guarded L s) (hc : ∀ n, node = some n → Confining L V s n)
    (he : loadElfProgramFromVfs L V s node out = some r) : Guarded L r.state := by
  rcases node with - | n
  · cases he
    exact h
  rcases out with - | out
  · cases he
    exact h
  obtain ⟨bs, hheap⟩ := h.heap
  obtain ⟨hfit, hend⟩ := hc n rfl
  by_cases htype : n.type = V.typeFile
  · rcases loadElf_cases hheap (answers_of_fits hheap n.size_lt (hfit htype)) he with
      ⟨-, hr⟩ | ⟨hi, hr⟩
    · have hnone : ∀ phdr ∈ ([] : List Phdr), Accepted 0 phdr := List.forall_mem_nil _
      exact hr.effect.guarded h hnone nofun
    · exact hr.effect.guarded h (segmentsOf_accepted _ n.size_lt) (hend hi)
  · rw [loadElfProgramFromVfs, if_pos htype] at he
    cases he
    exact h

theorem LoaderRun.guarded (h : LoaderRun L (Confining L) s) : Guarded L s := by
  induction h with
  | boot hs hh h => exact .of_init hs hh h
  | load V _ hc he ih => exact ih.load hc he

/-- In every run of calls that meet the condition, the pages that user programs reach are the
program area and the stack page. -/
theorem user_pages_confined (h : LoaderRun L (Confining L) s) :
    ∀ v, v < 4294967296 → UserAccessible L s.mem v → UserAddress v := by
  intro v hv hu
  obtain ⟨M, hM, hconf⟩ := h.guarded.pages
  exact hM.confined hconf hv hu

theorem PageRep.userAccessible_of_grants (h : PageRep L m M) (hv : v < 4294967296)
    (hg : M.Grants (v / 4096)) : UserAccessible L m v := by
  obtain ⟨hdir, hpage⟩ := h.walk hv
  obtain ⟨hg₁, hg₂⟩ := hg
  rw [Nat.div_div_eq_div_mul] at hg₁
  have hp := hpage (by rw [hg₁]; decide)
  simp only [UserAccessible]
  rw [hp, hdir, hg₁, hg₂, entryWord_and _ (by decide) (by decide),
    entryWord_and _ (by decide) (by decide)]
  exact ⟨by decide, by decide⟩

theorem user_pages_confined_after_sample :
    ∃ s r, memoryInit Layout.sample bootMemory 0 0 = some s ∧
      loadElfProgramFromVfs Layout.sample (.ram (zeroSegmentImage 0x00800000 64)) s
        (some sampleNode) (some 0) = some r ∧
      ∀ v, v < 4294967296 → UserAccessible Layout.sample r.state.mem v → UserAddress v := by
  obtain ⟨s, hs⟩ := Option.isSome_iff_exists.1 (memoryInit_default Layout.sample bootMemory rfl)
  obtain ⟨r, he, -⟩ := load_fresh (memoryInit_spec rfl rfl hs).2 (zeroSegmentImage 0x00800000 64) 0
  have hsegs : ∀ phdr ∈ segmentsOf 84 (zeroSegmentImage 0x00800000 64), phdr.memsz ≠ 0 →
      phdr.vaddr + alignUp phdr.memsz pageSize ≤ userProgramBase + userProgramMaxSize := by
    decide +kernel
  have hc : ∀ n, some sampleNode = some n →
      Confining Layout.sample (.ram (zeroSegmentImage 0x00800000 64)) s n := by
    rintro n hn
    cases hn
    exact ⟨fun _ => .inl (by decide), fun _ => hsegs⟩
  exact ⟨s, r, hs, he, user_pages_confined (.load _ (.boot rfl rfl hs) hc he)⟩

/-- A segment of one byte at the end of the program area opens the page behind it. -/
theorem user_page_leaks_past_program_area :
    ∃ s r, memoryInit Layout.sample bootMemory 0 0 = some s ∧
      loadElfProgramFromVfs Layout.sample (.ram (zeroSegmentImage 0x008FFFFF 1)) s
        (some sampleNode) (some 0) = some r ∧
      r.answer = .ok () ∧ UserAccessible Layout.sample r.state.mem 0x00900000 ∧
      ¬ UserAddress 0x00900000 := by
  obtain ⟨s, hs⟩ := Option.isSome_iff_exists.1 (memoryInit_default Layout.sample bootMemory rfl)
  obtain ⟨hpages, hheap⟩ := memoryInit_spec rfl rfl hs
  obtain ⟨r, he, hr⟩ := load_fresh hheap (zeroSegmentImage 0x008FFFFF 1) 0
  have hsegs : segmentsOf 84 (zeroSegmentImage 0x008FFFFF 1) = [⟨1, 0, 0x008FFFFF, 0, 1⟩] := by
    decide +kernel
  have hrep := hr.effect.pages _ hpages
  rw [hsegs] at hrep
  refine ⟨s, r, hs, he, ?_, ?_, ?_⟩
  · rw [hr.answer]
    decide +kernel
  · refine hrep.userAccessible_of_grants (by decide) ?_
    have hgrants : ((bootMap s.gTotalMemoryBytes).mark 0x008FFFFF 4096).Grants 0x900 :=
      PageMap.mark_grants hpages.dir_lt (by decide) (by decide) (by decide) (by decide)
    exact hgrants
  · simp only [UserAddress, userProgramBase, userProgramMaxSize, userStackTop, userStackSize]
    omega

end KernelCustom
