import KernelCustom.ElfGuarantees

namespace KernelCustom
open Word32 ByteStore BlockTiling
set_option autoImplicit true

theorem PageMap.map_of_grants {M : PageMap} (h : M.Grants p) :
    M.map p (pageWrite ||| pageUser) = M := by
  have hdir : M.dir (p / 1024) ||| (3 ||| ((pageWrite ||| pageUser) &&& 4)) = M.dir (p / 1024) := by
    rw [h.1]
    rfl
  have hpage : 1 ||| ((pageWrite ||| pageUser) &&& 6) = M.page p := by
    rw [h.2]
    rfl
  rw [map, hdir, hpage, Function.update_eq_self, Function.update_eq_self]
  exact ite_self M

/-- Marking pages that have all rights changes nothing. -/
theorem PageMap.mapPages_of_grants {M : PageMap} (h : ∀ q, lo ≤ q → q < lo + n → M.Grants q) :
    M.mapPages lo (pageWrite ||| pageUser) n = M := by
  induction n with
  | zero => rfl
  | succ n ih =>
    rw [mapPages, ih fun q hl hq => h q hl (by omega)]
    exact map_of_grants (h _ (by omega) (by omega))

theorem PageMap.markSegment_of_grants {M : PageMap} (h : ∀ q, phdr.Marks q → M.Grants q) :
    M.markSegment phdr = M := by
  rw [PageMap.markSegment]
  split
  · next hne =>
    rw [PageMap.mark]
    split
    · rfl
    · exact mapPages_of_grants fun q hl hq => h q ⟨hne, hl, by omega⟩
  · rfl

theorem PageMap.marks_of_grants {M : PageMap} {phdrs : List Phdr}
    (h : ∀ phdr ∈ phdrs, ∀ q, phdr.Marks q → M.Grants q) :
    phdrs.foldl PageMap.markSegment M = M := by
  induction phdrs with
  | nil => rfl
  | cons phdr phdrs ih =>
    rw [List.foldl_cons, markSegment_of_grants (h phdr List.mem_cons_self)]
    exact ih fun p hp => h p (List.mem_cons_of_mem _ hp)

theorem and_seven (h : a < 8) : a &&& 7 = a := by
  rw [Nat.and_two_pow_sub_one_eq_mod (n := 3)]
  exact Nat.mod_eq_of_lt h

theorem entryWord_inj (ha : a < 8) (hb : b < 8) (h : entryWord f a = entryWord f b) : a = b := by
  have hflags := congrArg (· &&& 7) h
  simp only [entryWord_and f ha (by decide : 7 < 8), entryWord_and f hb (by decide : 7 < 8),
    and_seven ha, and_seven hb] at hflags
  exact hflags

theorem PageRep.grants_of_userWritable (h : PageRep L m M) (hp : p < 32768)
    (hu : UserWritable L m (4096 * p)) : M.Grants p := by
  have hp₁ : 4096 * p / 4194304 = p / 1024 := by omega
  have hp₂ : 4096 * p / 4096 = p := by omega
  obtain ⟨hdir, hpage⟩ := h.walk (v := 4096 * p) (by omega)
  obtain ⟨hd, hpe, -⟩ := hu
  have hrights : pagePresent ||| pageWrite ||| pageUser = 7 := rfl
  rw [hp₁, hp₂] at hpage
  rw [hp₁] at hdir
  rw [hrights, hdir, entryWord_and _ (h.dir_lt _) (by decide), and_seven (h.dir_lt _)] at hd
  rw [hrights, hpage (by rw [hd]; decide), entryWord_and _ (h.page_lt _) (by decide),
    and_seven (h.page_lt _)] at hpe
  exact ⟨hd, hpe⟩

/-- Two memories with one page map hold the same tables. -/
theorem PageRep.byte_eq (h : PageRep L m M) (h' : PageRep L m' M) (hx : TableByte L x) :
    m' x = m x := by
  rcases hx with ⟨hl, hu⟩ | ⟨hl, hu⟩
  · have hd := (h'.directory ((x - L.gPageDirectory) / 4) (by omega)).trans
      (h.directory ((x - L.gPageDirectory) / 4) (by omega)).symm
    exact SameOn.of_load32 hd x (by omega) (by omega)
  · have ht := (h'.tables ((x - L.gPageTables) / 4) (by omega)).trans
      (h.tables ((x - L.gPageTables) / 4) (by omega)).symm
    exact SameOn.of_load32 ht x (by omega) (by omega)

/-- The same tables hold the same page map. -/
theorem PageRep.map_eq (h : PageRep L m M) (h' : PageRep L m' M')
    (hs : ∀ x, TableByte L x → m' x = m x) (hp : p < 32768) :
    M'.dir (p / 1024) = M.dir (p / 1024) ∧ M'.page p = M.page p := by
  have hm := h.of_same hs
  constructor
  · exact entryWord_inj (h'.dir_lt _) (h.dir_lt _)
      ((h'.directory (p / 1024) (by omega)).symm.trans (hm.directory (p / 1024) (by omega)))
  · exact entryWord_inj (h'.page_lt _) (h.page_lt _) ((h'.tables p hp).symm.trans (hm.tables p hp))

/-- The bytes of a segment in memory. -/
def Phdr.covers (phdr : Phdr) (x : Nat) : Bool := phdr.vaddr ≤ x ∧ x < phdr.vaddr + phdr.memsz

/-- What a segment puts at an address that it covers: a byte of the file or a zero. -/
def segmentByte (img : Mem) (x : Nat) (phdr : Phdr) : UInt8 :=
  if x < phdr.vaddr + phdr.filesz then img (phdr.offset + (x - phdr.vaddr)) else 0

/-- The last of some segments that covers an address. -/
def lastCovering (phdrs : List Phdr) (x : Nat) : Option Phdr :=
  (phdrs.filter fun phdr => phdr.covers x).getLast?

theorem overlaySegment_eq (img m : Mem) (hle : phdr.filesz ≤ phdr.memsz) (x : Nat) :
    overlaySegment img m phdr x = if phdr.covers x then segmentByte img x phdr else m x := by
  have hcovers : phdr.covers x = true ↔ phdr.vaddr ≤ x ∧ x < phdr.vaddr + phdr.memsz := by
    rw [Phdr.covers, decide_eq_true_eq]
  rw [overlaySegment, segmentByte]
  by_cases hin : phdr.vaddr ≤ x ∧ x < phdr.vaddr + phdr.memsz
  · rw [if_pos (hcovers.2 hin)]
    by_cases hfile : x < phdr.vaddr + phdr.filesz
    · rw [if_pos ⟨hin.1, hfile⟩, if_pos hfile]
    · rw [if_neg (fun h => hfile h.2), if_neg hfile, if_pos ⟨Nat.not_lt.1 hfile, hin.2⟩]
  · rw [if_neg (fun h => hin (hcovers.1 h)), if_neg (by omega), if_neg (by omega)]

/-- Laying segments over a memory shows the last one that covers an address. -/
theorem overlays_eq (img m : Mem) {phdrs : List Phdr}
    (ha : ∀ phdr ∈ phdrs, phdr.filesz ≤ phdr.memsz) (x : Nat) :
    phdrs.foldl (overlaySegment img) m x =
      (lastCovering phdrs x).elim (m x) (segmentByte img x) := by
  induction phdrs using List.reverseRecOn with
  | nil => rfl
  | append_singleton phdrs phdr ih =>
    rw [List.foldl_concat, overlaySegment_eq _ _ (ha phdr (by simp)), lastCovering,
      List.filter_append]
    by_cases hcovers : phdr.covers x = true
    · have hone : [phdr].filter (fun p => p.covers x) = [phdr] := List.filter_cons_of_pos hcovers
      rw [if_pos hcovers, hone, List.getLast?_concat]
      rfl
    · have hnone : [phdr].filter (fun p => p.covers x) = [] := List.filter_cons_of_neg hcovers
      rw [if_neg hcovers, hnone, List.append_nil]
      exact ih fun p hp => ha p (List.mem_append_left _ hp)

theorem lastCovering_some (h : lastCovering phdrs x = some phdr) :
    phdr ∈ phdrs ∧ phdr.vaddr ≤ x ∧ x < phdr.vaddr + phdr.memsz := by
  have hmem := List.mem_filter.1 (List.mem_of_getLast? h)
  exact ⟨hmem.1, of_decide_eq_true hmem.2⟩

/-- The program area and the page tables are as before. -/
structure NoTrace (L : Layout) (s s' : MemoryState) : Prop where
  region : ∀ x, userProgramBase ≤ x → x < userProgramBase + userProgramMaxSize →
    s'.mem x = s.mem x
  tables : ∀ x, TableByte L x → s'.mem x = s.mem x

theorem NoTrace.refl (L : Layout) (s : MemoryState) : NoTrace L s s :=
  ⟨fun _ _ _ => rfl, fun _ _ => rfl⟩

/-- What some segments put into memory is there already: at each address the byte of the last one
that covers it, and all rights on the pages that are marked for them. -/
structure SegmentsThere (L : Layout) (m img : Mem) (phdrs : List Phdr) : Prop where
  bytes : ∀ x phdr, lastCovering phdrs x = some phdr → m x = segmentByte img x phdr
  pages : ∀ phdr ∈ phdrs, ∀ q, phdr.Marks q → UserWritable L m (4096 * q)

/-- Segments leave no trace exactly when what they put into memory is there already. -/
theorem Effect.no_trace_iff (e : Effect L s img phdrs s') (hM : PageRep L s.mem M)
    (ha : ∀ phdr ∈ phdrs, Accepted size phdr) :
    NoTrace L s s' ↔ SegmentsThere L s.mem img phdrs := by
  have hbase : userProgramBase = 0x00800000 := rfl
  have hplaced := L.heap_placed
  have huser := L.below_user
  have hheap : L.heapEnd = L.gHeap + 524288 := rfl
  have hle : ∀ phdr ∈ phdrs, phdr.filesz ≤ phdr.memsz := fun phdr h => (ha phdr h).filesz_le
  have hM' := e.pages M hM
  have hregion : ∀ x, userProgramBase ≤ x → s'.mem x =
      (lastCovering phdrs x).elim (s.mem x) (segmentByte img x) := by
    intro x hx
    have htable : ¬ TableByte L x := by
      have hd := L.directory_placed
      have ht := L.tables_placed
      rintro (h | h) <;> omega
    rw [← overlays_eq img s.mem hle]
    exact e.memory x (.inr (by omega)) htable
  constructor
  · intro h
    refine ⟨fun x phdr hlast => ?_, fun phdr hmem q hq => ?_⟩
    · obtain ⟨hmem, hl, hu⟩ := lastCovering_some hlast
      have hin := (ha phdr hmem).in_region
      rw [← h.region x (by omega) (by omega), hregion x (by omega), hlast]
      rfl
    · have hlt := (ha phdr hmem).marks_lt hq
      obtain ⟨hdir, hpage⟩ := hM.map_eq hM' h.tables hlt
      obtain ⟨hdir', hpage'⟩ := marks_grants hM.dir_lt ha hmem hq
      refine hM.userWritable (by omega) ?_
      rw [Nat.mul_div_cancel_left q (by decide)]
      exact ⟨hdir.symm.trans hdir', hpage.symm.trans hpage'⟩
  · intro h
    refine ⟨fun x hl hu => ?_, fun x hx => ?_⟩
    · rw [hregion x hl]
      cases hlast : lastCovering phdrs x with
      | none => rfl
      | some phdr => exact (h.bytes x phdr hlast).symm
    · rw [PageMap.marks_of_grants fun phdr hmem q hq =>
        hM.grants_of_userWritable ((ha phdr hmem).marks_lt hq) (h.pages phdr hmem q hq)] at hM'
      exact hM.byte_eq hM' hx

/-- `kmalloc` finds a block for a request. -/
def HasRoom (s : MemoryState) (n : Nat) : Prop :=
  ∃ v ∈ blockList s, v.free ≠ 0 ∧ wrap (alignUp n heapAlign + headerSize) ≤ v.size

theorem HeapRep.hasRoom_iff (h : HeapRep L s bs) (n : Nat) :
    HasRoom s n ↔ ∃ b ∈ bs, b.free = true ∧ wrap (alignUp n 16 + headerSize) ≤ b.size := by
  rw [HasRoom, h.blockList_eq]
  constructor
  · rintro ⟨v, hv, hf, hs⟩
    obtain ⟨b, hb, -, -, hsize, hfree⟩ := mem_views hv
    rw [hfree] at hf
    rw [hsize] at hs
    refine ⟨b, hb, ?_, hs⟩
    by_contra hused
    exact hf (if_neg hused)
  · rintro ⟨b, hb, hf, hs⟩
    obtain ⟨v, hv, -, hsize, hfree⟩ := views_mem 0 hb
    refine ⟨v, hv, ?_, by rw [hsize]; exact hs⟩
    rw [hfree, if_pos hf]
    decide

theorem kmalloc_of_no_room (h : HeapRep L s bs) (hroom : ¬ HasRoom s n) :
    kmalloc L s n = some (0, s) := by
  rcases Nat.eq_zero_or_pos n with rfl | hn
  · rfl
  rw [h.hasRoom_iff] at hroom
  rcases kmalloc_eq h (n := n) (by omega) with ⟨-, he⟩ | ⟨pre, c, post, hfit, -⟩
  · exact he
  · exact (hroom ⟨c, by simp [hfit.split], hfit.free, hfit.enough⟩).elim

/-! How many bytes the operations of the heap write. -/

theorem relink_few (m : Mem) (next block : Nat) : FewChanges 4 m (relink m next block) := by
  rw [relink]
  split
  · exact store32_few ..
  · exact .refl ..

theorem splitBlock_few (m : Mem) (block size : Nat) :
    FewChanges 29 m (splitBlock m block size) := by
  rw [splitBlock]
  dsimp only
  split
  · exact .refl ..
  · refine FewChanges.trans (n := 25) ?_ (store32_few ..)
    refine FewChanges.trans (n := 21) ?_ (store32_few ..)
    refine FewChanges.trans (n := 17) ?_ (relink_few ..)
    refine FewChanges.trans (n := 13) ?_ (store32_few ..)
    refine FewChanges.trans (n := 9) ?_ (store32_few ..)
    exact ((store32_few ..).trans (store32_few ..)).trans (update_few ..)

theorem mergeWithNext_few (m : Mem) (block : Nat) : FewChanges 12 m (mergeWithNext m block) := by
  rw [mergeWithNext]
  split
  · exact .refl ..
  · dsimp only
    split
    · exact .refl ..
    · exact ((store32_few ..).trans (store32_few ..)).trans (relink_few ..)

theorem kfree_few (s : MemoryState) (ptr : Nat) : FewChanges 25 s.mem (kfree s ptr).mem := by
  rw [kfree]
  split
  · exact .refl ..
  · dsimp only
    split
    · exact .refl ..
    · have hfree : FewChanges 1 s.mem (setFree s.mem (payloadBlock ptr) 1) := update_few ..
      generalize setFree s.mem (payloadBlock ptr) 1 = m at hfree
      have hnext : FewChanges 13 s.mem (mergeWithNext m (payloadBlock ptr)) :=
        hfree.trans (mergeWithNext_few ..)
      generalize mergeWithNext m (payloadBlock ptr) = m' at hnext
      split
      · exact hnext.trans (mergeWithNext_few ..)
      · exact hnext.trans (.refl 12 m')

/-- A granted request of any size: where it lies, and how much `kmalloc` has written. -/
theorem kmalloc_of_room (h : HeapRep L s bs) (hn : n ≠ 0) (hroom : HasRoom s n) :
    ∃ p m, kmalloc L s n = some (p, { s with mem := m }) ∧ p ≠ 0 ∧ p ≤ userProgramBase ∧
      FewChanges 30 s.mem m := by
  obtain ⟨b, hb, hf, hs⟩ := (h.hasRoom_iff n).1 hroom
  rcases kmalloc_eq h hn with ⟨hnone, -⟩ | ⟨pre, c, post, hfit, he⟩
  · exact (hnone b hb ⟨hf, hs⟩).elim
  · have hbounds := h.bounds (b := c) (by simp [hfit.split])
    have hplaced := L.heap_placed
    have huser := L.below_user
    have hheap : L.heapEnd = L.gHeap + 524288 := rfl
    have hbase : userProgramBase = 0x00800000 := rfl
    exact ⟨_, _, he, by omega, by omega, (splitBlock_few ..).trans (update_few ..)⟩

/-- The call gets to reading the file. -/
theorem loadElf_read (V : Vfs) (node : VfsNode) (out : Nat) (hsize : sizeofEhdr ≤ node.size)
    (htype : node.type = V.typeFile) (hk : kmalloc L s node.size = some (p, s₁)) (hp : p ≠ 0) :
    ∃ r, loadElfProgramFromVfs L V s (some node) (some out) = some r ∧
      ((V.read node s₁.mem 0 node.size p).1 = false →
        r = ⟨.error .loadFailed, some out,
          kfree { s₁ with mem := (V.read node s₁.mem 0 node.size p).2 } p, []⟩) := by
  rw [loadElfProgramFromVfs, if_neg (not_not.2 htype), if_neg (Nat.not_lt.2 hsize), hk,
    Option.map_some]
  refine ⟨_, rfl, fun hread => ?_⟩
  simp only [if_neg hp, hread, if_true]

/-- A call that gets no buffer changes nothing. -/
theorem loadElf_early (h : node.type ≠ V.typeFile ∨ node.size < sizeofEhdr ∨
      kmalloc L s node.size = some (0, s))
    (he : loadElfProgramFromVfs L V s (some node) (some out) = some r) : r.state = s := by
  rw [loadElfProgramFromVfs] at he
  by_cases htype : node.type ≠ V.typeFile
  · rw [if_pos htype] at he
    cases he
    rfl
  by_cases hsize : node.size < sizeofEhdr
  · rw [if_neg htype, if_pos hsize] at he
    cases he
    rfl
  · have hk := (h.resolve_left htype).resolve_left hsize
    rw [if_neg htype, if_neg hsize, hk, Option.map_some] at he
    cases he
    rfl

/-- A refused call hands out no entry point. -/
theorem loadElf_refused_out (he : loadElfProgramFromVfs L V s node out = some r)
    (herr : r.answer = .error e) : r.entryPointOut = out := by
  rcases node with - | node
  · cases he
    rfl
  rcases out with - | out
  · cases he
    rfl
  rw [loadElfProgramFromVfs] at he
  split at he
  · cases he
    rfl
  split at he
  · cases he
    rfl
  obtain ⟨⟨p, s₁⟩, -, rfl⟩ := Option.map_eq_some_iff.1 he
  dsimp only at herr ⊢
  split at herr
  · next hp => rw [if_pos hp]
  next hp =>
  rw [if_neg hp]
  split at herr
  · next hread => rw [if_pos hread]
  next hread =>
  rw [if_neg hread]
  split at herr
  · rfl
  · cases herr

/-- Whatever file layer brings an image: when the call answers `false`, the program area, the page
tables and `*entry_point_out` are as before. -/
def LeavesNoTrace (L : Layout) (s : MemoryState) (size : Nat) (img : Mem) : Prop :=
  ∀ V node out r, (∀ n, node = some n → n.size = size ∧ V.image n = img) →
    loadElfProgramFromVfs L V s node out = some r → (∃ e, r.answer = .error e) →
      NoTrace L s r.state ∧ r.entryPointOut = out

/-- The file is too short for a header or too long for the heap; or its size does not wrap round in
`kmalloc`, and it is accepted or its accepted segments bring nothing new. -/
def BringsNothingNew (L : Layout) (s : MemoryState) (size : Nat) (img : Mem) : Prop :=
  sizeofEhdr ≤ size → HasRoom s size → size ≤ 4294967248 ∧
    (answerOf size img = .ok () ∨ SegmentsThere L s.mem img (segmentsOf size img))

theorem LeavesNoTrace.at_node (h : LeavesNoTrace L s size img) (hsize : node.size = size)
    (himg : V.image node = img) (he : loadElfProgramFromVfs L V s (some node) out = some r)
    (herr : r.answer = .error e) : NoTrace L s r.state := by
  refine (h V (some node) out r ?_ he ⟨e, herr⟩).1
  rintro n hn
  cases hn
  exact ⟨hsize, himg⟩

theorem BringsNothingNew.leaves (h : BringsNothingNew L s size img) (hready : MemoryReady L s) :
    LeavesNoTrace L s size img := by
  rintro V node out r hnode he ⟨e, herr⟩
  refine ⟨?_, loadElf_refused_out he herr⟩
  obtain ⟨bs, hheap⟩ := hready.heap
  obtain ⟨M, hM⟩ := hready.pages
  rcases node with - | node
  · cases he
    exact .refl L s
  rcases out with - | out
  · cases he
    exact .refl L s
  obtain ⟨rfl, rfl⟩ := hnode node rfl
  by_cases hsize : sizeofEhdr ≤ node.size
  · by_cases hroom : HasRoom s node.size
    · obtain ⟨hle, hor⟩ := h hsize hroom
      rcases loadElf_cases hheap (kmalloc_answers hheap hle) he with ⟨-, hr⟩ | ⟨-, hr⟩
      · have hnil : ∀ phdr ∈ ([] : List Phdr), Accepted node.size phdr := List.forall_mem_nil _
        exact (hr.effect.no_trace_iff hM hnil).2 ⟨nofun, nofun⟩
      · have hne : answerOf node.size (V.image node) ≠ .ok () := by
          rw [← hr.answer, herr]
          exact nofun
        exact (hr.effect.no_trace_iff hM (segmentsOf_accepted _ node.size_lt)).2
          (hor.resolve_left hne)
    · rw [loadElf_early (.inr (.inr (kmalloc_of_no_room hheap hroom))) he]
      exact .refl L s
  · rw [loadElf_early (.inr (.inl (Nat.not_le.1 hsize))) he]
    exact .refl L s

/-- A file layer that changes every byte of its buffer and then fails. -/
def Vfs.scribbling (img : Mem) : Vfs where
  typeFile := 1
  content := fun _ => img
  read := fun _ m _ size buf =>
    (false, fun x => if buf ≤ x ∧ x < buf + size then m x + 1 else m x)
  read_frame := by
    intro node m offset size buf x hx
    exact if_neg (by omega)
  read_fills := nofun

/-- A buffer that is too small for a file lets the file layer write into the program area. -/
theorem LeavesNoTrace.size_le (h : LeavesNoTrace L s size img) (hheap : HeapRep L s bs)
    (hsize : size < 4294967296) (hroom : HasRoom s size) : size ≤ 4294967248 := by
  by_contra hbig
  obtain ⟨p, m, hk, hp, hbase, hfew⟩ := kmalloc_of_room hheap (by omega) hroom
  obtain ⟨r, he, hr⟩ := loadElf_read (.scribbling img) ⟨0, 1, size, hsize⟩ 0
    (by simp only [sizeofEhdr]; omega) rfl hk hp
  cases hr rfl
  obtain ⟨hregion, -⟩ := h.at_node rfl rfl he rfl
  have hscribbled := hfew.pointwise fun x b => if p ≤ x ∧ x < p + size then b + 1 else b
  have hfree := kfree_few
    { s with mem := fun x => if p ≤ x ∧ x < p + size then m x + 1 else m x } p
  -- the heap has written less than the file layer
  obtain ⟨x, hl, hu, hx⟩ := (hscribbled.trans hfree).exists_same userProgramBase
  have hbase' : userProgramBase = 0x00800000 := rfl
  have hmax : userProgramMaxSize = 0x00100000 := rfl
  have hsame := hx.symm.trans (hregion x hl (by omega))
  rw [if_pos ⟨by omega, by omega⟩] at hsame
  have hne : ∀ b : UInt8, b + 1 ≠ b := by
    intro b
    grind
  exact hne _ hsame

/-- What an image that is refused has put into memory was there before. -/
theorem LeavesNoTrace.segments (h : LeavesNoTrace L s size img) (hready : MemoryReady L s)
    (h52 : sizeofEhdr ≤ size) (hle : size ≤ 4294967248) (hroom : HasRoom s size)
    (herr : answerOf size img = .error e) : SegmentsThere L s.mem img (segmentsOf size img) := by
  obtain ⟨bs, hheap⟩ := hready.heap
  obtain ⟨M, hM⟩ := hready.pages
  have hsize : size < 4294967296 := by omega
  have hne : size ≠ 0 := by
    simp only [sizeofEhdr] at h52
    omega
  obtain ⟨p, m, hk, hp, -⟩ := kmalloc_of_room hheap hne hroom
  obtain ⟨r, he, -⟩ := loadElf_read (.ram img) ⟨0, 1, size, hsize⟩ 0
    h52 rfl hk hp
  rcases loadElf_cases hheap (kmalloc_answers hheap hle) he with ⟨hno, -⟩ | ⟨-, hr⟩
  · exact (hno ⟨rfl, h52, p, _, hk, hp, rfl⟩).elim
  · have htrace := h.at_node rfl rfl he (hr.answer.trans herr)
    exact (hr.effect.no_trace_iff hM (segmentsOf_accepted img hsize)).1 htrace

theorem LeavesNoTrace.bringsNothingNew (h : LeavesNoTrace L s size img) (hready : MemoryReady L s)
    (hsize : size < 4294967296) : BringsNothingNew L s size img := by
  intro h52 hroom
  obtain ⟨bs, hheap⟩ := hready.heap
  have hle := h.size_le hheap hsize hroom
  refine ⟨hle, ?_⟩
  cases hans : answerOf size img with
  | ok => exact .inl rfl
  | error e => exact .inr (h.segments hready h52 hle hroom hans)

/-- A rejected program leaves no trace exactly when what its accepted segments put into memory was
there already. -/
theorem rejected_leaves_no_trace_iff (hready : MemoryReady L s) (hsize : size < 4294967296) :
    LeavesNoTrace L s size img ↔ BringsNothingNew L s size img :=
  ⟨fun h => h.bringsNothingNew hready hsize, fun h => h.leaves hready⟩

/-- An image whose only segment lies outside the program area. -/
theorem rejected_leaves_no_trace_at_zero :
    ∃ s, memoryInit Layout.sample bootMemory 0 0 = some s ∧
      LeavesNoTrace Layout.sample s 84 (zeroSegmentImage 0 64) := by
  obtain ⟨s, hs⟩ := Option.isSome_iff_exists.1 (memoryInit_default Layout.sample bootMemory rfl)
  have hsegs : segmentsOf 84 (zeroSegmentImage 0 64) = [] := by decide +kernel
  refine ⟨s, hs, (rejected_leaves_no_trace_iff (.of_init rfl rfl hs) (by decide)).2 fun _ _ => ?_⟩
  rw [hsegs]
  exact ⟨by decide, .inr ⟨nofun, nofun⟩⟩

/-- An executable of 116 bytes: its first segment brings the ELF magic to the program area, its
second one lies outside it. -/
def halfLoadedImage : Mem := fun k =>
  (wordBytes elf32Magic ++ [1, 1, 1, 0, 0, 0, 0, 0, 0, 0, 0, 0, 2, 0, 3, 0] ++ wordBytes 1 ++
    wordBytes 0x00800000 ++ wordBytes 52 ++ wordBytes 0 ++ wordBytes 0 ++
    [52, 0, 32, 0, 2, 0, 0, 0, 0, 0, 0, 0] ++
    wordBytes 1 ++ wordBytes 0 ++ wordBytes 0x00800000 ++ wordBytes 0 ++ wordBytes 4 ++
    wordBytes 4 ++ wordBytes 0 ++ wordBytes 0 ++
    wordBytes 1 ++ wordBytes 0 ++ wordBytes 0 ++ wordBytes 0 ++ wordBytes 0 ++
    wordBytes 1 ++ wordBytes 0 ++ wordBytes 0).getD k 0

/-- It is refused for its second segment, and the first one stays in memory. -/
theorem half_loaded_image_leaves_trace :
    ∃ s, memoryInit Layout.sample bootMemory 0 0 = some s ∧
      ¬ LeavesNoTrace Layout.sample s 116 halfLoadedImage := by
  obtain ⟨s, hs⟩ := Option.isSome_iff_exists.1 (memoryInit_default Layout.sample bootMemory rfl)
  refine ⟨s, hs, fun h => ?_⟩
  have hroom : HasRoom s 116 := by
    refine ((memoryInit_spec rfl rfl hs).2.hasRoom_iff 116).2 ?_
    exact ⟨_, List.mem_cons_self, rfl, by decide⟩
  have hans : answerOf 116 halfLoadedImage = .error .segmentOutsideUserRange := by decide +kernel
  have hsegs : segmentsOf 116 halfLoadedImage = [⟨1, 0, 0x00800000, 4, 4⟩] := by decide +kernel
  have hthere := h.segments (.of_init rfl rfl hs) (by decide) (by decide) hroom hans
  rw [hsegs] at hthere
  have hbyte := hthere.bytes 0x00800000 ⟨1, 0, 0x00800000, 4, 4⟩ (by decide)
  have hbefore : s.mem 0x00800000 = 0 := by
    refine memoryInit_apply rfl hs ?_ (.inr (by decide))
    rintro (⟨-, h⟩ | ⟨-, h⟩) <;> exact absurd h (by decide)
  exact absurd (hbefore.symm.trans hbyte) (by decide +kernel)

end KernelCustom
