import KernelCustom.ElfLoader
import KernelCustom.MemoryInit

namespace KernelCustom
open Word32 ByteStore
set_option autoImplicit true

/-- What the checks of a `PT_LOAD` header come to, over plain numbers. -/
structure Accepted (size : Nat) (phdr : Phdr) : Prop where
  in_file : phdr.offset + phdr.filesz ≤ size
  filesz_le : phdr.filesz ≤ phdr.memsz
  in_region : phdr.memsz = 0 ∨ userProgramBase ≤ phdr.vaddr ∧
    phdr.vaddr + phdr.memsz ≤ userProgramBase + userProgramMaxSize
  vaddr_lt : phdr.vaddr < 4294967296

/-- The fields of a header are words. -/
structure Phdr.Words (phdr : Phdr) : Prop where
  offset : phdr.offset < 4294967296
  vaddr : phdr.vaddr < 4294967296
  filesz : phdr.filesz < 4294967296
  memsz : phdr.memsz < 4294967296

theorem readPhdr_words (m : Mem) (a : Nat) : (readPhdr m a).Words :=
  ⟨load32_lt _ _, load32_lt _ _, load32_lt _ _, load32_lt _ _⟩

theorem validateSegment_iff (hv : vaddr < 4294967296) (hm : memsz < 4294967296) :
    validateSegment vaddr memsz = true ↔ memsz = 0 ∨ userProgramBase ≤ vaddr ∧
      vaddr + memsz ≤ userProgramBase + userProgramMaxSize := by
  have hreg : userProgramBase + userProgramMaxSize < 4294967296 := by decide
  have hw : wrap (vaddr + memsz) = (vaddr + memsz) % 4294967296 := rfl
  simp only [validateSegment]
  by_cases h₀ : memsz = 0
  · simp only [h₀, if_true, true_or]
  by_cases h₁ : vaddr < userProgramBase
  · simp only [if_neg h₀, if_pos h₁, Bool.false_eq_true, false_iff]
    omega
  by_cases h₂ : wrap (vaddr + memsz) < vaddr
  · simp only [if_neg h₀, if_neg h₁, if_pos h₂, Bool.false_eq_true, false_iff]
    omega
  by_cases h₃ : userProgramBase + userProgramMaxSize < wrap (vaddr + memsz)
  · simp only [if_neg h₀, if_neg h₁, if_neg h₂, if_pos h₃, Bool.false_eq_true, false_iff]
    omega
  · simp only [if_neg h₀, if_neg h₁, if_neg h₂, if_neg h₃, true_iff]
    omega

/-- The wrap-around checks of the loader are the unbounded inequalities. -/
theorem checkSegment_ok_iff {phdr : Phdr} (hw : phdr.Words) (hs : size < 4294967296) :
    checkSegment size phdr = .ok () ↔ Accepted size phdr := by
  obtain ⟨ho, hv, hf, hm⟩ := hw
  have hval := validateSegment_iff hv hm
  have hwrap : wrap (phdr.offset + phdr.filesz) =
      (phdr.offset + phdr.filesz) % 4294967296 := rfl
  rw [checkSegment]
  by_cases h₁ : wrap (phdr.offset + phdr.filesz) < phdr.offset
  · rw [if_pos h₁]
    refine ⟨nofun, fun h => ?_⟩
    have := h.in_file
    omega
  by_cases h₂ : size < wrap (phdr.offset + phdr.filesz)
  · rw [if_neg h₁, if_pos h₂]
    refine ⟨nofun, fun h => ?_⟩
    have := h.in_file
    omega
  by_cases h₃ : phdr.memsz < phdr.filesz
  · rw [if_neg h₁, if_neg h₂, if_pos h₃]
    refine ⟨nofun, fun h => ?_⟩
    have := h.filesz_le
    omega
  rw [if_neg h₁, if_neg h₂, if_neg h₃]
  cases hval' : validateSegment phdr.vaddr phdr.memsz with
  | false =>
    refine ⟨nofun, fun h => ?_⟩
    rw [hval.2 h.in_region] at hval'
    cases hval'
  | true => exact ⟨fun _ => ⟨by omega, by omega, hval.1 hval', hv⟩, fun _ => rfl⟩

/-- The bytes of an image lie in memory from an address on. -/
def ImageAt (m : Mem) (image size : Nat) (img : Mem) : Prop :=
  ∀ k, k < size → m (image + k) = img k

theorem ImageAt.load32 (h : ImageAt m image size img) (ha : a + 4 ≤ size) :
    ByteStore.load32 m (image + a) = ByteStore.load32 img a := by
  simp only [ByteStore.load32, Nat.add_assoc]
  rw [h a (by omega), h (a + 1) (by omega), h (a + 2) (by omega), h (a + 3) (by omega)]

theorem ImageAt.load16 (h : ImageAt m image size img) (ha : a + 2 ≤ size) :
    ByteStore.load16 m (image + a) = ByteStore.load16 img a := by
  simp only [ByteStore.load16, Nat.add_assoc]
  rw [h a (by omega), h (a + 1) (by omega)]

theorem ImageAt.ehdr (h : ImageAt m image size img) (hs : 52 ≤ size) :
    readEhdr m image = readEhdr img 0 := by
  have h₀ := h.load32 (a := 0) (by omega)
  rw [Nat.add_zero] at h₀
  simp only [readEhdr, Nat.zero_add]
  rw [h₀, h 4 (by omega), h 5 (by omega), h 6 (by omega), h.load16 (by omega),
    h.load32 (by omega), h.load32 (by omega), h.load32 (by omega), h.load16 (by omega),
    h.load16 (by omega), h.load16 (by omega)]

theorem ImageAt.phdr (h : ImageAt m image size img) (ha : a + 32 ≤ size) :
    readPhdr m (image + a) = readPhdr img a := by
  simp only [readPhdr, Nat.add_assoc]
  rw [h.load32 (by omega), h.load32 (by omega), h.load32 (by omega), h.load32 (by omega),
    h.load32 (by omega)]

/-- The program header table of an image, whole. -/
def programHeaders (img : Mem) : List Phdr :=
  (List.range (readEhdr img 0).phnum).map fun i =>
    readPhdr img ((readEhdr img 0).phoff + i * sizeofPhdr)

/-- The `PT_LOAD` headers of an image, in table order. -/
def loadHeaders (img : Mem) : List Phdr :=
  (programHeaders img).filter fun phdr => phdr.type = elf32PtLoad

/-- The headers that are placed before the first refusal. -/
def placed (size : Nat) : List Phdr → List Phdr
  | [] => []
  | phdr :: phdrs =>
    match checkSegment size phdr with
    | .error _ => []
    | .ok () => phdr :: placed size phdrs

/-- The answer of the loop: the first refusal, if there is one. -/
def verdictOf (size : Nat) : List Phdr → Except Rejection Unit
  | [] => .ok ()
  | phdr :: phdrs =>
    match checkSegment size phdr with
    | .error e => .error e
    | .ok () => verdictOf size phdrs

theorem placed_of_ok (h : verdictOf size phdrs = .ok ()) : placed size phdrs = phdrs := by
  induction phdrs with
  | nil => rfl
  | cons phdr phdrs ih =>
    rw [verdictOf] at h
    rw [placed]
    split at h
    · cases h
    · simp only [ih h]

/-- A buffer inside the heap. -/
structure Buffer (L : Layout) (image size : Nat) : Prop where
  above : L.gHeap ≤ image
  below : image + size ≤ L.heapEnd

theorem Buffer.top (h : Buffer L image size) : image + size ≤ 0x00800000 := by
  have h₁ := h.below
  have h₂ := L.heap_placed
  have h₃ := L.below_user
  rw [Layout.heapEnd] at h₁
  omega

theorem Buffer.off_tables (h : Buffer L image size) (hl : image ≤ x) (hx : x < image + size) :
    ¬ TableByte L x := by
  intro ht
  have h₁ := h.above
  have h₂ := h.below
  rcases ht.off_heap with h₃ | h₃ <;> omega

/-- A memory with one segment laid over it. -/
def overlaySegment (img m : Mem) (phdr : Phdr) : Mem := fun x =>
  if phdr.vaddr ≤ x ∧ x < phdr.vaddr + phdr.filesz then img (phdr.offset + (x - phdr.vaddr))
  else if phdr.vaddr + phdr.filesz ≤ x ∧ x < phdr.vaddr + phdr.memsz then 0
  else m x

theorem markSegment_apply (m : Mem) (ha : Accepted size phdr) (hx : ¬ TableByte L x) :
    markSegment L m phdr x = m x := by
  rw [markSegment]
  split
  · exact pagingMarkUserRange_apply L m ha.vaddr_lt _ hx
  · rfl

theorem Accepted.fits (ha : Accepted size phdr) : phdr.vaddr + phdr.memsz ≤ 4294967296 := by
  have hreg := ha.in_region
  have hv := ha.vaddr_lt
  simp only [userProgramBase, userProgramMaxSize] at hreg
  omega

/-- The copy of a segment reads the image and leaves all else alone. -/
theorem copySegment_apply (hb : Buffer L image size) (ha : Accepted size phdr)
    (him : ImageAt m image size img) (hx : ¬ TableByte L x) :
    memcpy (markSegment L m phdr) phdr.vaddr (image + phdr.offset) phdr.filesz x =
      if phdr.vaddr ≤ x ∧ x < phdr.vaddr + phdr.filesz then img (phdr.offset + (x - phdr.vaddr))
      else m x := by
  have htop := hb.top
  have hfile := ha.in_file
  have hle := ha.filesz_le
  have hreg := ha.in_region
  have hfits := ha.fits
  simp only [userProgramBase, userProgramMaxSize] at hreg
  rw [memcpy_apply _ _ _ (by omega) (by omega) (by omega)]
  split
  · next hin =>
    rw [markSegment_apply m ha (hb.off_tables (by omega) (by omega)), Nat.add_assoc]
    exact him _ (by omega)
  · exact markSegment_apply m ha hx

/-- Apart from the page tables, an accepted segment is laid over the memory. -/
theorem placeSegment_apply (hb : Buffer L image size) (ha : Accepted size phdr)
    (him : ImageAt m image size img) (hx : ¬ TableByte L x) :
    placeSegment L image m phdr x = overlaySegment img m phdr x := by
  have htop := hb.top
  have hfile := ha.in_file
  have hle := ha.filesz_le
  have hfits := ha.fits
  have hcopy := copySegment_apply hb ha him hx
  simp only [placeSegment]
  have hsrc : wrap (image + phdr.offset) = image + phdr.offset := wrap_of_lt (by omega)
  rw [hsrc, overlaySegment]
  by_cases hlt : phdr.filesz < phdr.memsz
  · rw [if_pos hlt, wrap_of_lt (by omega), memset_apply _ _ _ (by omega), hcopy]
    by_cases h₁ : phdr.vaddr ≤ x ∧ x < phdr.vaddr + phdr.filesz
    · rw [if_neg (by omega)]
      simp only [if_pos h₁]
    · by_cases h₂ : phdr.vaddr + phdr.filesz ≤ x ∧ x < phdr.vaddr + phdr.memsz
      · rw [if_pos (by omega), if_neg h₁, if_pos h₂]
      · rw [if_neg (by omega), if_neg h₁, if_neg h₁, if_neg h₂]
  · rw [if_neg hlt, hcopy]
    by_cases h₁ : phdr.vaddr ≤ x ∧ x < phdr.vaddr + phdr.filesz
    · simp only [if_pos h₁]
    · rw [if_neg h₁, if_neg h₁, if_neg (by omega)]

/-- Segments are laid outside the kernel. -/
theorem overlaySegment_low (img m : Mem) (ha : Accepted size phdr) (hx : x < userProgramBase) :
    overlaySegment img m phdr x = m x := by
  have hreg := ha.in_region
  have hle := ha.filesz_le
  rw [overlaySegment, if_neg (by omega), if_neg (by omega)]

theorem ImageAt.place {phdr : Phdr} (hb : Buffer L image size) (ha : Accepted size phdr)
    (him : ImageAt m image size img) : ImageAt (placeSegment L image m phdr) image size img := by
  intro k hk
  have htop := hb.top
  have hbase : userProgramBase = 0x00800000 := rfl
  rw [placeSegment_apply hb ha him (hb.off_tables (by omega) (by omega)),
    overlaySegment_low _ _ ha (by omega)]
  exact him k hk

/-- The header table lies inside the image. -/
structure TableFits (img : Mem) (size : Nat) : Prop where
  ehdr : 52 ≤ size
  phdrs : (readEhdr img 0).phoff + (readEhdr img 0).phnum * 32 ≤ size

/-- The check on the end of the table is the unbounded inequality. -/
theorem checkHeader_table {ehdr : Ehdr} (hoff : ehdr.phoff < 4294967296)
    (hnum : ehdr.phnum < 65536) (h : checkHeader size ehdr = .ok ()) :
    ehdr.phoff + ehdr.phnum * 32 ≤ size := by
  by_contra hne
  have hend : wrap (ehdr.phoff + ehdr.phnum * sizeofPhdr) < ehdr.phoff ∨
      size < wrap (ehdr.phoff + ehdr.phnum * sizeofPhdr) := by
    simp only [wrap, sizeofPhdr]
    omega
  simp only [checkHeader, if_pos hend] at h
  repeat' split at h
  all_goals cases h

theorem TableFits.of_checkHeader (hs : 52 ≤ size)
    (h : checkHeader size (readEhdr img 0) = .ok ()) : TableFits img size :=
  ⟨hs, checkHeader_table (load32_lt _ _) (load16_lt _ _) h⟩

/-- The `PT_LOAD` headers from some index of the table on. -/
def loadHeadersFrom (img : Mem) (i : Nat) : List Phdr :=
  ((programHeaders img).drop i).filter fun phdr => phdr.type = elf32PtLoad

theorem programHeaders_drop (h : i < (readEhdr img 0).phnum) :
    (programHeaders img).drop i =
      readPhdr img ((readEhdr img 0).phoff + i * sizeofPhdr) ::
        (programHeaders img).drop (i + 1) := by
  have hlen : i < (programHeaders img).length := by
    simpa only [programHeaders, List.length_map, List.length_range] using h
  rw [List.drop_eq_getElem_cons hlen]
  simp only [programHeaders, List.getElem_map, List.getElem_range]

theorem loadHeadersFrom_cons (h : i < (readEhdr img 0).phnum)
    (ht : (readPhdr img ((readEhdr img 0).phoff + i * sizeofPhdr)).type = elf32PtLoad) :
    loadHeadersFrom img i =
      readPhdr img ((readEhdr img 0).phoff + i * sizeofPhdr) :: loadHeadersFrom img (i + 1) := by
  rw [loadHeadersFrom, programHeaders_drop h, List.filter_cons_of_pos (by simpa using ht)]
  rfl

theorem loadHeadersFrom_skip (h : i < (readEhdr img 0).phnum)
    (ht : (readPhdr img ((readEhdr img 0).phoff + i * sizeofPhdr)).type ≠ elf32PtLoad) :
    loadHeadersFrom img i = loadHeadersFrom img (i + 1) := by
  rw [loadHeadersFrom, programHeaders_drop h, List.filter_cons_of_neg (by simpa using ht)]
  rfl

theorem loadHeadersFrom_end (h : (readEhdr img 0).phnum ≤ i) : loadHeadersFrom img i = [] := by
  rw [loadHeadersFrom, List.drop_eq_nil_of_le]
  · rfl
  · simpa only [programHeaders, List.length_map, List.length_range] using h

/-- An access that stays inside the image or inside the program area. -/
def Access.InBounds (size : Nat) : Access → Prop
  | image index len => ∀ k, k < len → index + k < size
  | segment addr len => ∀ k, k < len → userProgramBase ≤ wrap (addr + k) ∧
      wrap (addr + k) < userProgramBase + userProgramMaxSize

theorem placeAccesses_inBounds (ha : Accepted size phdr) :
    ∀ a ∈ placeAccesses phdr, a.InBounds size := by
  obtain ⟨hfile, hle, hreg, hv⟩ := ha
  have hmax : userProgramBase + userProgramMaxSize < 4294967296 := by decide
  have hseg : ∀ addr len, phdr.vaddr ≤ addr → addr + len ≤ phdr.vaddr + phdr.memsz →
      (Access.segment addr len).InBounds size := by
    intro addr len hl hu k hk
    rw [wrap_of_lt (by omega)]
    omega
  intro a hmem
  simp only [placeAccesses, List.mem_cons] at hmem
  rcases hmem with rfl | rfl | hmem
  · intro k hk
    omega
  · exact hseg _ _ (Nat.le_refl _) (by omega)
  · split at hmem
    · rw [List.mem_singleton] at hmem
      subst hmem
      rw [wrap_of_lt (by omega)]
      exact hseg _ _ (by omega) (by omega)
    · cases hmem

/-- One round of the loop, with the header taken from the image. -/
theorem segmentLoop_succ (hb : Buffer L image size) (ht : TableFits img size)
    (him : ImageAt s.mem image size img) (fuel : Nat) (hi : i < (readEhdr img 0).phnum) :
    ∃ log, (∀ a ∈ log, a ∈ s.log ∨ a.InBounds size) ∧
      segmentLoop L image size (fuel + 1) i s =
        let phdr := readPhdr img ((readEhdr img 0).phoff + i * sizeofPhdr)
        if phdr.type ≠ elf32PtLoad then segmentLoop L image size fuel (i + 1) ⟨s.mem, log⟩
        else
          match checkSegment size phdr with
          | .error e => (.error e, ⟨s.mem, log⟩)
          | .ok () =>
            segmentLoop L image size fuel (i + 1)
              ⟨placeSegment L image s.mem phdr, log ++ placeAccesses phdr⟩ := by
  have htop := hb.top
  have htab := ht.phdrs
  have hsize := ht.ehdr
  have hphdr : sizeofPhdr = 32 := rfl
  have hehdr : sizeofEhdr = 52 := rfl
  have hin : (readEhdr img 0).phoff + i * 32 + 32 ≤ size := by omega
  refine ⟨s.log ++ [.image 0 sizeofEhdr] ++
    [.image ((readEhdr img 0).phoff + i * sizeofPhdr) sizeofPhdr], ?_, ?_⟩
  · intro a ha
    simp only [List.mem_append, List.mem_singleton] at ha
    rcases ha with (ha | rfl) | rfl
    · exact .inl ha
    · refine .inr fun k hk => ?_
      omega
    · refine .inr fun k hk => ?_
      rw [hphdr] at hk ⊢
      omega
  · rw [segmentLoop]
    simp only [LoadState.note, him.ehdr ht.ehdr, if_pos hi]
    have hread := him.phdr (a := (readEhdr img 0).phoff + i * sizeofPhdr) (by rw [hphdr]; exact hin)
    rw [Nat.add_assoc, wrap_of_lt (by rw [hphdr]; omega)]
    generalize readPhdr s.mem _ = phdr at hread ⊢
    subst hread
    rfl

/-- The loop answers with the first refusal and has placed the segments before it. -/
theorem segmentLoop_spec (hb : Buffer L image size) (hs : size < 4294967296)
    (ht : TableFits img size) (him : ImageAt s.mem image size img)
    (hfuel : (readEhdr img 0).phnum ≤ i + fuel) :
    ∃ log, (∀ a ∈ log, a ∈ s.log ∨ a.InBounds size) ∧
      segmentLoop L image size fuel i s = (verdictOf size (loadHeadersFrom img i),
        ⟨(placed size (loadHeadersFrom img i)).foldl (placeSegment L image) s.mem, log⟩) := by
  induction fuel generalizing i s with
  | zero =>
    rw [loadHeadersFrom_end (by omega)]
    exact ⟨s.log, fun a ha => .inl ha, rfl⟩
  | succ fuel ih =>
    by_cases hi : i < (readEhdr img 0).phnum
    · obtain ⟨log, hlog, heq⟩ := segmentLoop_succ hb ht him fuel hi
      rw [heq]
      have hw := readPhdr_words img ((readEhdr img 0).phoff + i * sizeofPhdr)
      by_cases htype :
          (readPhdr img ((readEhdr img 0).phoff + i * sizeofPhdr)).type = elf32PtLoad
      · rw [loadHeadersFrom_cons hi htype]
        simp only [htype, ne_eq, not_true_eq_false, if_false, verdictOf, placed]
        cases hcheck : checkSegment size
            (readPhdr img ((readEhdr img 0).phoff + i * sizeofPhdr)) with
        | error e => exact ⟨log, hlog, rfl⟩
        | ok u =>
          have hacc := (checkSegment_ok_iff hw hs).1 hcheck
          obtain ⟨log', hlog', heq'⟩ := ih (i := i + 1)
            (s := ⟨placeSegment L image s.mem _, log ++ placeAccesses _⟩)
            (him.place hb hacc) (by omega)
          refine ⟨log', ?_, heq'⟩
          intro a ha
          rcases hlog' a ha with ha | ha
          · rcases List.mem_append.1 ha with ha | ha
            · exact hlog a ha
            · exact .inr (placeAccesses_inBounds hacc a ha)
          · exact .inr ha
      · rw [loadHeadersFrom_skip hi htype]
        simp only [htype, ne_eq, not_false_eq_true, if_true]
        obtain ⟨log', hlog', heq'⟩ := ih (i := i + 1) (s := ⟨s.mem, log⟩) him (by omega)
        refine ⟨log', ?_, heq'⟩
        intro a ha
        rcases hlog' a ha with ha | ha
        · exact hlog a ha
        · exact .inr ha
    · rw [loadHeadersFrom_end (by omega), segmentLoop]
      simp only [him.ehdr ht.ehdr, if_neg hi]
      refine ⟨_, ?_, rfl⟩
      intro a ha
      rcases List.mem_append.1 ha with ha | ha
      · exact .inl ha
      · rw [List.mem_singleton] at ha
        subst ha
        have hsize := ht.ehdr
        refine .inr fun k hk => ?_
        simp only [sizeofEhdr] at hk
        omega

end KernelCustom
