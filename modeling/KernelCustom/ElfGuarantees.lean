import KernelCustom.ElfEffects
import KernelCustom.HeapGuarantees

namespace KernelCustom
open Word32 ByteStore BlockTiling
set_option autoImplicit true

/-- A file layer that holds one image in memory and never fails. -/
def Vfs.ram (img : Mem) : Vfs where
  typeFile := 1
  content := fun _ => img
  read := fun _ m offset size buf =>
    (true, fun x => if buf ≤ x ∧ x < buf + size then img (offset + (x - buf)) else m x)
  read_frame := by
    intro node m offset size buf x hx
    exact if_neg (by omega)
  read_fills := by
    intro node m offset size buf _ k hk
    have hin : buf ≤ buf + k ∧ buf + k < buf + size := by omega
    simp only [if_pos hin, Nat.add_sub_cancel_left]

def wordBytes (n : Nat) : List UInt8 :=
  [UInt8.ofNat n, UInt8.ofNat (n / 256), UInt8.ofNat (n / 65536), UInt8.ofNat (n / 16777216)]

/-- An executable of 84 bytes: a header, and one segment at an address, with so many bytes from the
start of the file. -/
def segmentImage (vaddr filesz memsz : Nat) : Mem := fun k =>
  (wordBytes elf32Magic ++ [1, 1, 1, 0, 0, 0, 0, 0, 0, 0, 0, 0, 2, 0, 3, 0] ++ wordBytes 1 ++
    wordBytes vaddr ++ wordBytes 52 ++ wordBytes 0 ++ wordBytes 0 ++
    [52, 0, 32, 0, 1, 0, 0, 0, 0, 0, 0, 0] ++
    wordBytes 1 ++ wordBytes 0 ++ wordBytes vaddr ++ wordBytes 0 ++ wordBytes filesz ++
    wordBytes memsz ++ wordBytes 0 ++ wordBytes 0).getD k 0

/-- The executable with a segment of zeroes. -/
def zeroSegmentImage (vaddr memsz : Nat) : Mem := segmentImage vaddr 0 memsz

/-- A regular file of 84 bytes. -/
def sampleNode : VfsNode := ⟨12, 1, 84, by decide⟩

/-- On every path the loader reads inside the image and writes inside the program area. -/
theorem elf_accesses_in_bounds
    (hbuf : ∀ n, node = some n → ∀ p s', kmalloc L s n.size = some (p, s') → p ≠ 0 →
      Buffer L p n.size)
    (he : loadElfProgramFromVfs L V s node out = some r) :
    ∀ a ∈ r.log, ∃ n, node = some n ∧ a.InBounds n.size := by
  rcases node with - | n
  · cases he
    exact List.forall_mem_nil _
  rcases out with - | out
  · cases he
    exact List.forall_mem_nil _
  rw [loadElfProgramFromVfs] at he
  by_cases htype : n.type ≠ V.typeFile
  · rw [if_pos htype] at he
    cases he
    exact List.forall_mem_nil _
  by_cases hsize : n.size < sizeofEhdr
  · rw [if_neg htype, if_pos hsize] at he
    cases he
    exact List.forall_mem_nil _
  rw [if_neg htype, if_neg hsize, Option.map_eq_some_iff] at he
  obtain ⟨⟨p, s₁⟩, hk, he⟩ := he
  by_cases hp : p = 0
  · simp only [if_pos hp] at he
    subst he
    exact List.forall_mem_nil _
  simp only [if_neg hp] at he
  split at he
  · subst he
    exact List.forall_mem_nil _
  · obtain ⟨log, hlog, heq⟩ := loadImage_spec (hbuf n rfl p s₁ hk hp) n.size_lt
      (by simpa only [sizeofEhdr, Nat.not_lt] using hsize)
      (m := (V.read n s₁.mem 0 n.size p).2) (fun _ _ => rfl)
    rw [heq] at he
    split at he
    · subst he
      exact fun a ha => ⟨n, rfl, hlog a ha⟩
    · subst he
      exact fun a ha => ⟨n, rfl, hlog a ha⟩

theorem elf_accesses_in_bounds_of_sample :
    ∃ r, loadElfProgramFromVfs Layout.sample (Vfs.ram (zeroSegmentImage 0x00800000 64))
        (heapInit Layout.sample bootMemory) (some sampleNode) (some 0) = some r ∧
      ∀ a ∈ r.log, ∃ n, some sampleNode = some n ∧ a.InBounds n.size := by
  have hsome : (loadElfProgramFromVfs Layout.sample (Vfs.ram (zeroSegmentImage 0x00800000 64))
      (heapInit Layout.sample bootMemory) (some sampleNode) (some 0)).isSome := by decide +kernel
  have hptr : (kmalloc Layout.sample (heapInit Layout.sample bootMemory) 84).map Prod.fst =
      some 0x00110020 := by decide +kernel
  obtain ⟨r, he⟩ := Option.isSome_iff_exists.1 hsome
  refine ⟨r, he, elf_accesses_in_bounds ?_ he⟩
  rintro n hn p s' hk -
  cases hn
  have hk' : kmalloc Layout.sample (heapInit Layout.sample bootMemory) 84 = some (p, s') := hk
  rw [hk', Option.map_some, Option.some.injEq] at hptr
  subst hptr
  exact ⟨by decide, by decide⟩

/-- A request that the fresh heap can hold is granted. -/
theorem kmalloc_fresh (h : HeapRep L s [⟨L.gHeap, 524288, true⟩]) (hn : 0 < n) (hle : n ≤ 4096) :
    ∃ p s' bs', kmalloc L s n = some (p, s') ∧ p ≠ 0 ∧
      Granted L s [⟨L.gHeap, 524288, true⟩] n p s' bs' := by
  rcases kmalloc_answers h (n := n) (by omega) with he | he
  · rcases kmalloc_spec h hn (by omega) with ⟨hnone, -⟩ | ⟨pre, c, post, s', -, he', -⟩
    · have hfp := footprint_eq (n := n) (by omega)
      exact (hnone _ List.mem_cons_self ⟨rfl, by simp only; omega⟩).elim
    · rw [he] at he'
      cases he'
  · exact he

/-- What `memory_init` sets up and what the calls of the kernel keep: a heap in order, and page
tables that describe a page map. -/
structure MemoryReady (L : Layout) (s : MemoryState) : Prop where
  heap : ∃ bs, HeapRep L s bs
  pages : ∃ M, PageRep L s.mem M

theorem MemoryReady.of_init (hs : s.gPagingReady = false) (hh : s.gHeapReady = false)
    (h : memoryInit L s mbMagic mbInfoAddr = some s') : MemoryReady L s' := by
  obtain ⟨hpages, hheap⟩ := memoryInit_spec hs hh h
  exact ⟨⟨_, hheap⟩, ⟨_, hpages⟩⟩

theorem Effect.ready (e : Effect L s img phdrs s') (h : MemoryReady L s) : MemoryReady L s' := by
  obtain ⟨M, hM⟩ := h.pages
  exact ⟨e.heap, ⟨_, e.pages M hM⟩⟩

theorem PageMap.Grants.markSegment {M : PageMap} (h : M.Grants p) (phdr : Phdr) :
    (M.markSegment phdr).Grants p := by
  rw [PageMap.markSegment]
  split
  · exact h.mark _ _
  · exact h

theorem PageMap.Grants.marks {M : PageMap} (h : M.Grants p) (phdrs : List Phdr) :
    (phdrs.foldl PageMap.markSegment M).Grants p := by
  induction phdrs generalizing M with
  | nil => exact h
  | cons q phdrs ih => exact ih (h.markSegment q)

/-- The pages that are marked for a segment. -/
def Phdr.Marks (phdr : Phdr) (q : Nat) : Prop :=
  phdr.memsz ≠ 0 ∧ phdr.vaddr / 4096 ≤ q ∧
    q < markEnd phdr.vaddr (alignUp phdr.memsz pageSize) / 4096

/-- The end of the pages that are marked for an accepted segment. -/
theorem Accepted.markEnd_eq (ha : Accepted size phdr) (hne : phdr.memsz ≠ 0) :
    alignUp phdr.memsz pageSize = (phdr.memsz + 4095) / 4096 * 4096 ∧
      markEnd phdr.vaddr (alignUp phdr.memsz pageSize) =
        (phdr.vaddr + (phdr.memsz + 4095) / 4096 * 4096 + 4095) / 4096 * 4096 := by
  have hreg := ha.in_region
  simp only [userProgramBase, userProgramMaxSize] at hreg
  have hup : alignUp phdr.memsz pageSize = (phdr.memsz + 4095) / 4096 * 4096 := by
    rw [pageSize, alignUp_page]
    omega
  refine ⟨hup, ?_⟩
  rw [markEnd, hup, pageSize, alignUp_page, wrap]
  omega

/-- The marked range of a segment covers its pages. -/
theorem Accepted.marks_page (ha : Accepted size phdr) (hl : phdr.vaddr ≤ x)
    (hx : x < phdr.vaddr + phdr.memsz) : phdr.Marks (x / 4096) := by
  have hne : phdr.memsz ≠ 0 := by omega
  refine ⟨hne, by omega, ?_⟩
  rw [(ha.markEnd_eq hne).2]
  omega

theorem Accepted.marks_lt (ha : Accepted size phdr) (hq : phdr.Marks q) : q < 32768 := by
  obtain ⟨hne, -, hlt⟩ := hq
  have hreg := ha.in_region
  simp only [userProgramBase, userProgramMaxSize] at hreg
  rw [(ha.markEnd_eq hne).2] at hlt
  omega

theorem markSegment_grants {M : PageMap} (hM : ∀ d, M.dir d < 8) (ha : Accepted size phdr)
    (hq : phdr.Marks q) : (M.markSegment phdr).Grants q := by
  have hlt := ha.marks_lt hq
  obtain ⟨hne, hl, hu⟩ := hq
  rw [PageMap.markSegment, if_pos hne]
  exact PageMap.mark_grants hM (by rw [(ha.markEnd_eq hne).1]; omega) hl hu hlt

theorem marks_dir_lt {M : PageMap} (hM : ∀ d, M.dir d < 8) (phdr : Phdr) :
    ∀ d, (M.markSegment phdr).dir d < 8 := by
  intro d
  rw [PageMap.markSegment, PageMap.mark]
  repeat' split
  · exact hM d
  · rcases M.mapPages_dir (phdr.vaddr / 4096) (pageWrite ||| pageUser)
      (markEnd phdr.vaddr (alignUp phdr.memsz pageSize) / 4096 - phdr.vaddr / 4096) d with h | h
    · rw [h]
      exact hM d
    · rw [h]
      exact Nat.or_lt_two_pow (n := 3) (hM d) (by decide)
  · exact hM d

theorem marks_grants {M : PageMap} {phdrs : List Phdr} (hM : ∀ d, M.dir d < 8)
    (ha : ∀ phdr ∈ phdrs, Accepted size phdr) (hmem : phdr ∈ phdrs) (hq : phdr.Marks q) :
    (phdrs.foldl PageMap.markSegment M).Grants q := by
  induction phdrs generalizing M with
  | nil => cases hmem
  | cons phdr' phdrs ih =>
    rcases List.mem_cons.1 hmem with rfl | hmem
    · exact (markSegment_grants hM (ha _ List.mem_cons_self) hq).marks phdrs
    · exact ih (marks_dir_lt hM phdr') (fun phdr h => ha phdr (List.mem_cons_of_mem _ h)) hmem

theorem loadElf_ok_kmalloc
    (he : loadElfProgramFromVfs L V s (some node) (some out) = some r)
    (hok : r.answer = .ok ()) : ∃ p s₁, kmalloc L s node.size = some (p, s₁) ∧ p ≠ 0 := by
  rw [loadElfProgramFromVfs] at he
  by_cases htype : node.type ≠ V.typeFile
  · rw [if_pos htype] at he
    cases he
    cases hok
  by_cases hsize : node.size < sizeofEhdr
  · rw [if_neg htype, if_pos hsize] at he
    cases he
    cases hok
  rw [if_neg htype, if_neg hsize, Option.map_eq_some_iff] at he
  obtain ⟨⟨p, s₁⟩, hk, he⟩ := he
  refine ⟨p, s₁, hk, ?_⟩
  rintro rfl
  rw [if_pos rfl] at he
  subst he
  cases hok

/-- An accepted image is laid over the memory, its pages are open to the program, and the entry
point is handed out. -/
theorem elf_loader_meaning (hready : MemoryReady L s)
    (hbuf : ∀ p s', kmalloc L s node.size = some (p, s') → p ≠ 0 → Buffer L p node.size)
    (he : loadElfProgramFromVfs L V s (some node) (some out) = some r)
    (hok : r.answer = .ok ()) :
    (∀ x, x < L.gHeap ∨ L.heapEnd ≤ x → ¬ TableByte L x → r.state.mem x =
      (loadHeaders (V.image node)).foldl (overlaySegment (V.image node)) s.mem x) ∧
    (∀ phdr ∈ loadHeaders (V.image node), ∀ x v, phdr.vaddr ≤ x → x < phdr.vaddr + phdr.memsz →
      v / 4096 = x / 4096 → UserWritable L r.state.mem v) ∧
    r.entryPointOut = some (readEhdr (V.image node) 0).entry := by
  obtain ⟨bs, hheap⟩ := hready.heap
  obtain ⟨M, hpages⟩ := hready.pages
  have hsmall : node.size ≤ 524288 := by
    obtain ⟨p, s₁, hk, hp⟩ := loadElf_ok_kmalloc he hok
    have h₁ := (hbuf p s₁ hk hp).above
    have h₂ := (hbuf p s₁ hk hp).below
    rw [Layout.heapEnd] at h₂
    omega
  rcases loadElf_cases hheap (kmalloc_answers hheap (by omega)) he with
    ⟨-, hr⟩ | ⟨-, hr⟩
  · obtain ⟨e, herr⟩ := hr.answer
    rw [hok] at herr
    cases herr
  · have hacc := segmentsOf_accepted (V.image node) node.size_lt
    have heff := hr.effect
    rw [segmentsOf_of_ok (hr.answer.symm.trans hok)] at heff hacc
    refine ⟨heff.memory, ?_, hr.entryPointOut hok⟩
    intro phdr hmem x v hl hx hv
    have hreg := (hacc phdr hmem).in_region
    simp only [userProgramBase, userProgramMaxSize] at hreg
    refine (heff.pages M hpages).userWritable (by omega) ?_
    rw [hv]
    exact marks_grants hpages.dir_lt hacc hmem ((hacc phdr hmem).marks_page hl hx)

/-- A file that fits in the fresh heap is answered by its image. -/
theorem load_fresh (h : HeapRep L s [⟨L.gHeap, 524288, true⟩]) (img : Mem) (out : Nat) :
    ∃ r, loadElfProgramFromVfs L (.ram img) s (some sampleNode) (some out) = some r ∧
      Answered L s img 84 r := by
  obtain ⟨p, s₁, bs₁, hk, hp, g⟩ := kmalloc_fresh h (n := 84) (by decide) (by decide)
  have hk' : kmalloc L s sampleNode.size = some (p, s₁) := hk
  have htype : ¬ sampleNode.type ≠ (Vfs.ram img).typeFile := not_not.2 rfl
  have hsize : ¬ sampleNode.size < sizeofEhdr := by decide
  have hsome : (loadElfProgramFromVfs L (.ram img) s (some sampleNode) (some out)).isSome := by
    rw [loadElfProgramFromVfs, if_neg htype, if_neg hsize, hk']
    rfl
  obtain ⟨r, he⟩ := Option.isSome_iff_exists.1 hsome
  rcases loadElf_cases h (.inr ⟨p, s₁, bs₁, hk, hp, g⟩) he with ⟨hno, -⟩ | ⟨-, hr⟩
  · exact (hno ⟨rfl, by decide, p, s₁, hk', hp, rfl⟩).elim
  · exact ⟨r, he, hr⟩

/-- Four bytes of the file and sixty zeroes. -/
theorem elf_loader_meaning_of_sample :
    ∃ s r, memoryInit Layout.sample bootMemory 0 0 = some s ∧
      loadElfProgramFromVfs Layout.sample (.ram (segmentImage 0x00800000 4 64)) s
        (some sampleNode) (some 0) = some r ∧
      r.answer = .ok () ∧
      (List.range 6).map (fun k => r.state.mem (0x00800000 + k)) =
        [0x7F, 0x45, 0x4C, 0x46, 0, 0] ∧
      UserWritable Layout.sample r.state.mem 0x00800000 ∧
      r.entryPointOut = some 0x00800000 := by
  obtain ⟨s, hs⟩ := Option.isSome_iff_exists.1 (memoryInit_default Layout.sample bootMemory rfl)
  have hheap := (memoryInit_spec rfl rfl hs).2
  obtain ⟨r, he, hr⟩ := load_fresh hheap (segmentImage 0x00800000 4 64) 0
  have hok : r.answer = .ok () := by
    rw [hr.answer]
    decide +kernel
  have hbuf : ∀ p s', kmalloc Layout.sample s sampleNode.size = some (p, s') → p ≠ 0 →
      Buffer Layout.sample p sampleNode.size := by
    intro p s' hk _
    obtain ⟨q, s₁, bs₁, hk', -, g⟩ := kmalloc_fresh hheap (n := 84) (by decide) (by decide)
    have hkk : some (q, s₁) = some (p, s') := hk'.symm.trans hk
    cases hkk
    exact g.buffer
  obtain ⟨hbytes, hpages, hentry⟩ := elf_loader_meaning (.of_init rfl rfl hs) hbuf he hok
  have hheaders : loadHeaders (segmentImage 0x00800000 4 64) = [⟨1, 0, 0x00800000, 4, 64⟩] := by
    decide +kernel
  have hmem : ⟨1, 0, 0x00800000, 4, 64⟩ ∈ loadHeaders (segmentImage 0x00800000 4 64) := by
    rw [hheaders]
    exact List.mem_singleton_self _
  have hoverlay : SameOn (overlaySegment (segmentImage 0x00800000 4 64) s.mem
      ⟨1, 0, 0x00800000, 4, 64⟩) r.state.mem 0x00800000 0x00800040 := by
    intro x hl hx
    have hend : Layout.sample.heapEnd = 0x00190000 := by decide
    have htable : ¬ TableByte Layout.sample x := by
      have hdir : Layout.sample.gPageDirectory = 0x00200000 := rfl
      have htables : Layout.sample.gPageTables = 0x00201000 := rfl
      rw [TableByte]
      omega
    have hfold : (loadHeaders (segmentImage 0x00800000 4 64)).foldl
        (overlaySegment (segmentImage 0x00800000 4 64)) s.mem =
          overlaySegment (segmentImage 0x00800000 4 64) s.mem ⟨1, 0, 0x00800000, 4, 64⟩ := by
      rw [hheaders]
      rfl
    exact (hbytes x (by omega) htable).trans (congrFun hfold x)
  have htext : (List.range 6).map (fun k => r.state.mem (0x00800000 + k)) =
      [0x7F, 0x45, 0x4C, 0x46, 0, 0] := by
    refine (List.map_congr_left fun k hk => hoverlay (0x00800000 + k) ?_ ?_).trans rfl
    · exact Nat.le_add_right _ _
    · have hlt := List.mem_range.1 hk
      omega
  have hpage := hpages _ hmem 0x00800000 0x00800000 (by decide) (by decide) rfl
  have hvalue : (readEhdr (segmentImage 0x00800000 4 64) 0).entry = 0x00800000 := by
    decide +kernel
  exact ⟨s, r, hs, he, hok, htext, hpage, hentry.trans (congrArg some hvalue)⟩

end KernelCustom
