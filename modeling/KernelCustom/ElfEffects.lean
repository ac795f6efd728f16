import KernelCustom.ElfSegments
import KernelCustom.HeapContract

namespace KernelCustom
open Word32 ByteStore BlockTiling
set_option autoImplicit true

/-- The segments of an image that the loader places. -/
def segmentsOf (size : Nat) (img : Mem) : List Phdr :=
  match checkHeader size (readEhdr img 0) with
  | .error _ => []
  | .ok () => placed size (loadHeaders img)

/-- The answer of the loader to an image. -/
def answerOf (size : Nat) (img : Mem) : Except Rejection Unit :=
  match checkHeader size (readEhdr img 0) with
  | .error e => .error e
  | .ok () => verdictOf size (loadHeaders img)

theorem segmentsOf_of_ok (h : answerOf size img = .ok ()) :
    segmentsOf size img = loadHeaders img := by
  rw [answerOf] at h
  rw [segmentsOf]
  split at h
  · cases h
  · exact placed_of_ok h

theorem mem_placed (h : phdr ∈ placed size phdrs) :
    phdr ∈ phdrs ∧ checkSegment size phdr = .ok () := by
  induction phdrs with
  | nil => cases h
  | cons q phdrs ih =>
    rw [placed] at h
    split at h
    · cases h
    · next hok =>
      rcases List.mem_cons.1 h with rfl | h
      · exact ⟨List.mem_cons_self, hok⟩
      · exact ⟨List.mem_cons_of_mem _ (ih h).1, (ih h).2⟩

theorem loadHeaders_words (h : phdr ∈ loadHeaders img) : phdr.Words := by
  simp only [loadHeaders, programHeaders, List.mem_filter, List.mem_map] at h
  obtain ⟨⟨i, -, rfl⟩, -⟩ := h
  exact readPhdr_words _ _

theorem segmentsOf_accepted (img : Mem) (hs : size < 4294967296) :
    ∀ phdr ∈ segmentsOf size img, Accepted size phdr := by
  intro phdr h
  rw [segmentsOf] at h
  split at h
  · cases h
  · obtain ⟨hmem, hok⟩ := mem_placed h
    exact (checkSegment_ok_iff (loadHeaders_words hmem) hs).1 hok

theorem ImageAt.places {phdrs : List Phdr} (hb : Buffer L image size)
    (ha : ∀ phdr ∈ phdrs, Accepted size phdr)
    (him : ImageAt m image size img) :
    ImageAt (phdrs.foldl (placeSegment L image) m) image size img := by
  induction phdrs generalizing m with
  | nil => exact him
  | cons q phdrs ih =>
    apply ih
    · intro phdr h
      exact ha phdr (List.mem_cons_of_mem _ h)
    · exact him.place hb (ha q List.mem_cons_self)

/-- An image in a heap buffer is answered, its segments are placed, and all accesses stay in
bounds. -/
theorem loadImage_spec (hb : Buffer L image size) (hs : size < 4294967296) (h52 : 52 ≤ size)
    (him : ImageAt m image size img) :
    ∃ log, (∀ a ∈ log, a.InBounds size) ∧
      loadImage L image size m = ((answerOf size img).map (fun _ => (readEhdr img 0).entry),
        ⟨(segmentsOf size img).foldl (placeSegment L image) m, log⟩) := by
  have hehdr : (Access.image 0 sizeofEhdr).InBounds size := by
    intro k hk
    simp only [sizeofEhdr] at hk
    omega
  have hacc := segmentsOf_accepted img hs
  simp only [loadImage, him.ehdr h52, answerOf]
  rw [segmentsOf] at hacc ⊢
  cases hcheck : checkHeader size (readEhdr img 0) with
  | error e =>
    refine ⟨[.image 0 sizeofEhdr], ?_, rfl⟩
    simpa only [List.mem_singleton, forall_eq] using hehdr
  | ok u =>
    have ht := TableFits.of_checkHeader h52 hcheck
    have hnum : (readEhdr img 0).phnum < 65536 := load16_lt _ _
    obtain ⟨log, hlog, heq⟩ := segmentLoop_spec (s := ⟨m, [.image 0 sizeofEhdr]⟩) hb hs ht him
      (by omega : (readEhdr img 0).phnum ≤ 0 + 65536)
    have hlog' : ∀ a ∈ log, a.InBounds size := by
      intro a ha
      rcases hlog a ha with h | h
      · rw [List.mem_singleton.1 h]
        exact hehdr
      · exact h
    have hheaders : loadHeadersFrom img 0 = loadHeaders img := rfl
    rw [hheaders] at heq
    simp only [heq]
    simp only [hcheck] at hacc
    cases verdictOf size (loadHeaders img) with
    | error e => exact ⟨log, hlog', rfl⟩
    | ok u =>
      have him' := him.places hb hacc
      simp only [him'.ehdr h52]
      refine ⟨log ++ [.image 0 sizeofEhdr], ?_, rfl⟩
      intro a ha
      rcases List.mem_append.1 ha with h | h
      · exact hlog' a h
      · rw [List.mem_singleton.1 h]
        exact hehdr

/-- What an overlay shows at an address depends on that address alone. -/
theorem overlaySegment_congr (h : m x = m' x) (img : Mem) (phdr : Phdr) :
    overlaySegment img m phdr x = overlaySegment img m' phdr x := by
  rw [overlaySegment, overlaySegment, h]

theorem overlays_congr (h : m x = m' x) (img : Mem) (phdrs : List Phdr) :
    phdrs.foldl (overlaySegment img) m x = phdrs.foldl (overlaySegment img) m' x := by
  induction phdrs generalizing m m' with
  | nil => exact h
  | cons q phdrs ih => exact ih (overlaySegment_congr h img q)

theorem overlays_low {phdrs : List Phdr} (ha : ∀ phdr ∈ phdrs, Accepted size phdr) (img m : Mem)
    (hx : x < userProgramBase) : phdrs.foldl (overlaySegment img) m x = m x := by
  induction phdrs generalizing m with
  | nil => rfl
  | cons q phdrs ih =>
    rw [List.foldl_cons, ih (fun phdr h => ha phdr (List.mem_cons_of_mem _ h)),
      overlaySegment_low img m (ha q List.mem_cons_self) hx]

/-- Apart from the page tables, the segments are laid over the memory in order. -/
theorem places_apply {phdrs : List Phdr} (hb : Buffer L image size)
    (ha : ∀ phdr ∈ phdrs, Accepted size phdr)
    (him : ImageAt m image size img) (hx : ¬ TableByte L x) :
    phdrs.foldl (placeSegment L image) m x = phdrs.foldl (overlaySegment img) m x := by
  induction phdrs generalizing m with
  | nil => rfl
  | cons q phdrs ih =>
    have hq := ha q List.mem_cons_self
    rw [List.foldl_cons, List.foldl_cons, ih (fun phdr h => ha phdr (List.mem_cons_of_mem _ h))
      (him.place hb hq)]
    exact overlays_congr (placeSegment_apply hb hq him hx) img phdrs

/-- What a segment does to the page map. -/
def PageMap.markSegment (M : PageMap) (phdr : Phdr) : PageMap :=
  if phdr.memsz ≠ 0 then M.mark phdr.vaddr (alignUp phdr.memsz pageSize) else M

/-- The contents of a segment miss the page tables. -/
theorem placeSegment_tables (hb : Buffer L image size) (ha : Accepted size phdr) (m : Mem)
    (hx : TableByte L x) : placeSegment L image m phdr x = KernelCustom.markSegment L m phdr x := by
  have htop := hb.top
  have hd := L.directory_placed
  have ht := L.tables_placed
  have hu := L.below_user
  have hfile := ha.in_file
  have hle := ha.filesz_le
  have hreg := ha.in_region
  have hfits := ha.fits
  have hbase : userProgramBase = 0x00800000 := rfl
  have hlow : x < 0x00800000 := by
    rcases hx with hx | hx <;> omega
  simp only [placeSegment]
  have hsrc : wrap (image + phdr.offset) = image + phdr.offset := wrap_of_lt (by omega)
  rw [hsrc]
  have hcopy : memcpy (KernelCustom.markSegment L m phdr) phdr.vaddr (image + phdr.offset)
      phdr.filesz x = KernelCustom.markSegment L m phdr x := by
    rw [memcpy_apply _ _ _ (by omega) (by omega) (by omega), if_neg (by omega)]
  split
  · next hlt =>
    rw [wrap_of_lt (by omega), memset_apply _ _ _ (by omega), if_neg (by omega), hcopy]
  · exact hcopy

theorem PageRep.place (h : PageRep L m M) (hb : Buffer L image size) (ha : Accepted size phdr) :
    PageRep L (placeSegment L image m phdr) (M.markSegment phdr) := by
  have hmark : PageRep L (KernelCustom.markSegment L m phdr) (M.markSegment phdr) := by
    rw [KernelCustom.markSegment, PageMap.markSegment]
    split
    · exact h.mark ha.vaddr_lt _
    · exact h
  exact hmark.of_same fun x hx => placeSegment_tables hb ha m hx

theorem PageRep.places {phdrs : List Phdr} (h : PageRep L m M) (hb : Buffer L image size)
    (ha : ∀ phdr ∈ phdrs, Accepted size phdr) :
    PageRep L (phdrs.foldl (placeSegment L image) m) (phdrs.foldl PageMap.markSegment M) := by
  induction phdrs generalizing m M with
  | nil => exact h
  | cons q phdrs ih =>
    exact ih (h.place hb (ha q List.mem_cons_self))
      (fun phdr h => ha phdr (List.mem_cons_of_mem _ h))

/-- What a call does: outside the heap, some segments are laid over the memory and marked in the
page map; the heap is in order again. -/
structure Effect (L : Layout) (s : MemoryState) (img : Mem) (phdrs : List Phdr)
    (s' : MemoryState) : Prop where
  heap : ∃ bs, HeapRep L s' bs
  pages : ∀ M, PageRep L s.mem M → PageRep L s'.mem (phdrs.foldl PageMap.markSegment M)
  memory : ∀ x, x < L.gHeap ∨ L.heapEnd ≤ x → ¬ TableByte L x →
    s'.mem x = phdrs.foldl (overlaySegment img) s.mem x

theorem Effect.refl (h : HeapRep L s bs) (img : Mem) : Effect L s img [] s :=
  ⟨⟨bs, h⟩, fun _ hM => hM, fun _ _ _ => rfl⟩

theorem Granted.buffer (g : Granted L s bs n p s' bs') : Buffer L p n := by
  have hp := g.payload_bounds
  exact ⟨by omega, hp.2.1⟩

/-- Segments placed from a granted buffer, which is then freed. -/
theorem Granted.effect (g : Granted L s bs n p s₁ bs₁) {phdrs : List Phdr}
    (ha : ∀ phdr ∈ phdrs, Accepted n phdr) (him : phdrs ≠ [] → ImageAt s₁.mem p n img) :
    Effect L s img phdrs
      (kfree { s₁ with mem := phdrs.foldl (placeSegment L p) s₁.mem } p) := by
  have hbuf := g.buffer
  have hplaced := L.heap_placed
  have huser := L.below_user
  have hbase : userProgramBase = 0x00800000 := rfl
  -- outside the page tables the placed segments are an overlay
  have hover : ∀ x, ¬ TableByte L x → phdrs.foldl (placeSegment L p) s₁.mem x =
      phdrs.foldl (overlaySegment img) s₁.mem x := by
    intro x hx
    cases phdrs with
    | nil => rfl
    | cons q phdrs => exact places_apply hbuf ha (him (by simp)) hx
  have hrep : HeapRep L { s₁ with mem := phdrs.foldl (placeSegment L p) s₁.mem } bs₁ := by
    apply g.rep.of_sameOn
    rintro x ⟨b, hb, hl, hu⟩
    have hbb := g.rep.bounds hb
    have hoff : ¬ TableByte L x := by
      intro ht
      have := ht.off_heap
      omega
    rw [hover x hoff, overlays_low ha img s₁.mem (by omega)]
  obtain ⟨b, hb, c, -, -, rfl, -⟩ := g.fresh
  obtain ⟨bs', r⟩ := kfree_cases hrep hb
  have hclient : ∀ x, x < L.gHeap ∨ L.heapEnd ≤ x → ∀ bs, ClientByte L bs x := by
    intro x hx bs
    rcases hx with hx | hx
    · exact .inl hx
    · exact .inr (.inl hx)
  refine ⟨⟨bs', r.rep⟩, ?_, ?_⟩
  · intro M hM
    have h₁ : PageRep L s₁.mem M := hM.of_same fun x hx => g.client x (hclient x hx.off_heap bs)
    exact (h₁.places hbuf ha).of_same fun x hx => r.client x (hclient x hx.off_heap bs₁)
  · intro x hx ht
    rw [r.client x (hclient x hx bs₁)]
    change phdrs.foldl (placeSegment L (b.addr + 32)) s₁.mem x = _
    rw [hover x ht]
    exact overlays_congr (g.client x (hclient x hx bs)) img phdrs

/-- The contents of a file as a memory that starts at 0. -/
def Vfs.image (V : Vfs) (node : VfsNode) : Mem := V.content node

/-- The call gets as far as looking at the image. -/
def ImageRead (L : Layout) (V : Vfs) (s : MemoryState) (node : VfsNode) : Prop :=
  node.type = V.typeFile ∧ sizeofEhdr ≤ node.size ∧
    ∃ p s', kmalloc L s node.size = some (p, s') ∧ p ≠ 0 ∧
      (V.read node s'.mem 0 node.size p).1 = true

/-- A refusal before the image is looked at. -/
structure Refused (L : Layout) (s : MemoryState) (img : Mem) (out : Nat) (r : Loaded) : Prop where
  answer : ∃ e, r.answer = .error e
  entryPointOut : r.entryPointOut = some out
  log : r.log = []
  effect : Effect L s img [] r.state

/-- The answer of an image of some size. -/
structure Answered (L : Layout) (s : MemoryState) (img : Mem) (size : Nat) (r : Loaded) :
    Prop where
  answer : r.answer = answerOf size img
  entryPointOut : r.answer = .ok () → r.entryPointOut = some (readEhdr img 0).entry
  log : ∀ a ∈ r.log, a.InBounds size
  effect : Effect L s img (segmentsOf size img) r.state

/-- A call on a heap in order: refused before the image is looked at, or answered by it. -/
theorem loadElf_cases (h : HeapRep L s bs) (ha : Answers L s bs node.size)
    (he : loadElfProgramFromVfs L V s (some node) (some out) = some r) :
    (¬ ImageRead L V s node ∧ Refused L s (V.image node) out r) ∨
      (ImageRead L V s node ∧ Answered L s (V.image node) node.size r) := by
  rw [loadElfProgramFromVfs] at he
  by_cases htype : node.type ≠ V.typeFile
  · rw [if_pos htype] at he
    cases he
    exact .inl ⟨fun hi => htype hi.1, ⟨_, rfl⟩, rfl, rfl, .refl h _⟩
  by_cases hsize : node.size < sizeofEhdr
  · rw [if_neg htype, if_pos hsize] at he
    cases he
    exact .inl ⟨fun hi => Nat.not_lt.2 hi.2.1 hsize, ⟨_, rfl⟩, rfl, rfl, .refl h _⟩
  rw [if_neg htype, if_neg hsize] at he
  rcases ha with hk | ⟨p, s₁, bs₁, hk, hp, g⟩
  · simp only [hk, Option.map_some, if_true, Option.some.injEq] at he
    subst he
    refine .inl ⟨?_, ⟨_, rfl⟩, rfl, rfl, .refl h _⟩
    rintro ⟨-, -, p, s', hk', hp, -⟩
    rw [hk] at hk'
    cases hk'
    exact hp rfl
  · have g₂ := g.fill h (m := (V.read node s₁.mem 0 node.size p).2)
      fun x hx => V.read_frame node s₁.mem 0 node.size p x hx
    simp only [hk, Option.map_some, if_neg hp, Option.some.injEq] at he
    cases hread : (V.read node s₁.mem 0 node.size p).1 with
    | false =>
      simp only [hread, if_true] at he
      subst he
      have heff : Effect L s (V.image node) [] _ :=
        g₂.effect (List.forall_mem_nil _) fun h₀ => (h₀ rfl).elim
      refine .inl ⟨?_, ⟨_, rfl⟩, rfl, rfl, heff⟩
      rintro ⟨-, -, p', s', hk', -, hread'⟩
      rw [hk] at hk'
      cases hk'
      rw [hread] at hread'
      cases hread'
    | true =>
      have him : ImageAt (V.read node s₁.mem 0 node.size p).2 p node.size (V.image node) := by
        intro k hk
        rw [V.read_fills node s₁.mem 0 node.size p hread k hk, Nat.zero_add]
        rfl
      obtain ⟨log, hlog, heq⟩ := loadImage_spec g.buffer node.size_lt
        (by simpa only [sizeofEhdr, Nat.not_lt] using hsize) him
      have heff := g₂.effect (segmentsOf_accepted (V.image node) node.size_lt) fun _ => him
      simp only [hread, Bool.true_eq_false, if_false, heq] at he
      refine .inr ⟨⟨not_not.1 htype, Nat.not_lt.1 hsize, p, s₁, hk, hp, hread⟩, ?_⟩
      cases hans : answerOf node.size (V.image node) with
      | error e =>
        simp only [hans, Except.map] at he
        subst he
        exact ⟨hans.symm, fun h => (by cases h), hlog, heff⟩
      | ok u =>
        simp only [hans, Except.map] at he
        subst he
        exact ⟨hans.symm, fun _ => rfl, hlog, heff⟩

end KernelCustom
