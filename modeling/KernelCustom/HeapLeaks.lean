import KernelCustom.ScanHeap
import KernelCustom.ElfEffects
import KernelCustom.HeapGuarantees

namespace KernelCustom
open Word32 ByteStore CString BlockTiling
set_option autoImplicit true

theorem linked_of_blocksFrom (h : blocksFrom m fuel cur = views prev bs)
    (hlen : bs.length < fuel) : cur = headAddr bs 0 ∧ Linked m prev bs 0 := by
  induction bs generalizing prev fuel cur with
  | nil =>
    cases fuel with
    | zero => cases hlen
    | succ fuel =>
      refine ⟨?_, trivial⟩
      by_contra hcur
      have hne : cur ≠ 0 := hcur
      rw [blocksFrom, if_neg hne] at h
      cases h
  | cons b bs ih =>
    cases fuel with
    | zero => cases hlen
    | succ fuel =>
      rw [blocksFrom, views] at h
      split at h
      · cases h
      · rw [List.cons.injEq, readBlock, HeapBlock.mk.injEq] at h
        obtain ⟨⟨rfl, hmagic, hsize, hfree, hnext, hprev⟩, htail⟩ := h
        obtain ⟨-, hl⟩ := ih htail (Nat.lt_of_succ_lt_succ hlen)
        exact ⟨rfl, ⟨hmagic, hsize, hfree, hnext, hprev⟩, hl⟩

theorem blockList_congr {s s' : MemoryState} (hm : s'.mem = s.mem)
    (hh : s'.gHeapHead = s.gHeapHead) : blockList s' = blockList s := by
  rw [blockList, blockList, hm, hh]

/-- A state with the block list of a heap in order holds that heap. -/
theorem HeapRep.of_blockList (h : HeapRep L s bs) (hs : blockList s' = blockList s) :
    HeapRep L { s' with gHeapReady := true } bs := by
  rw [h.blockList_eq] at hs
  obtain ⟨hhead, hl⟩ := linked_of_blocksFrom hs h.length_lt
  exact ⟨rfl, hhead.trans h.headAddr_eq, hl, h.arena⟩

/-- `kfree` does not look at `g_heap_ready`. -/
theorem kfree_ready (s : MemoryState) (ready : Bool) (ptr : Nat) :
    kfree { s with gHeapReady := ready } ptr = { kfree s ptr with gHeapReady := ready } := by
  by_cases hp : ptr = 0
  · simp only [kfree, if_pos hp]
  · by_cases hm : blockMagic s.mem (payloadBlock ptr) ≠ blockMagicWord
    · simp only [kfree, if_neg hp, if_pos hm]
    · simp only [kfree, if_neg hp, if_neg hm]

/-- Whatever has happened outside the block list since a block was handed out, giving it back
leaves the list as it was before. -/
theorem HeapRep.blockList_giveBack (h : HeapRep L s bs)
    (hfit : FirstFit (footprint n) bs pre c post)
    (h' : HeapRep L { s' with gHeapReady := true } (pre ++ taken (footprint n) 48 c ::
      (remainder (footprint n) 48 c ++ post))) :
    blockList (kfree s' (c.addr + 32)) = blockList s := by
  have hback := h.giveBack hfit h'
  rw [kfree_ready] at hback
  rw [h.blockList_eq, ← hback.blockList_eq]
  exact blockList_congr rfl rfl

theorem memcpy_outside (m : Mem) (src : Nat) (hd : dst + n ≤ 4294967296)
    (hx : x < dst ∨ dst + n ≤ x) : memcpy m dst src n x = m x := by
  induction n generalizing m dst src with
  | zero => rfl
  | succ n ih =>
    rw [memcpy]
    cases n with
    | zero => exact Function.update_of_ne (by omega) _ _
    | succ n =>
      rw [wrap_of_lt (by omega), ih _ _ (by omega) (by omega),
        Function.update_of_ne (by omega)]

/-- An accepted segment, whatever the image holds, changes nothing of the kernel but its page
tables. -/
theorem placeSegment_low (image : Nat) (m : Mem) (ha : Accepted size phdr)
    (hx : x < userProgramBase) (ht : ¬ TableByte L x) : placeSegment L image m phdr x = m x := by
  have hreg := ha.in_region
  have hle := ha.filesz_le
  have hv := ha.vaddr_lt
  have hfits := ha.fits
  have hcopy : memcpy (markSegment L m phdr) phdr.vaddr (wrap (image + phdr.offset)) phdr.filesz
      x = m x := by
    by_cases hz : phdr.memsz = 0
    · have hfile : phdr.filesz = 0 := by omega
      rw [hfile]
      exact markSegment_apply m ha ht
    · rw [memcpy_outside _ _ (by omega) (by omega), markSegment_apply m ha ht]
  simp only [placeSegment]
  split
  · have hdst : wrap (phdr.vaddr + phdr.filesz) = phdr.vaddr + phdr.filesz :=
      wrap_of_lt (by omega)
    rw [hdst, memset_apply _ _ _ (by omega), if_neg (by omega), hcopy]
  · exact hcopy

theorem segmentLoop_low (hs : size < 4294967296) (hx : x < userProgramBase)
    (ht : ¬ TableByte L x) (s : LoadState) :
    (segmentLoop L image size fuel i s).2.mem x = s.mem x := by
  induction fuel generalizing i s with
  | zero => rfl
  | succ fuel ih =>
    simp only [segmentLoop]
    split
    · split
      · exact ih _
      · split
        · rfl
        · next hok =>
          have ha := (checkSegment_ok_iff (readPhdr_words _ _) hs).1 hok
          exact (ih _).trans (placeSegment_low image s.mem ha hx ht)
    · rfl

theorem loadImage_low (hs : size < 4294967296) (hx : x < userProgramBase)
    (ht : ¬ TableByte L x) (image : Nat) (m : Mem) :
    (loadImage L image size m).2.mem x = m x := by
  have hloop : (segmentLoop L image size 65536 0 ⟨m, [.image 0 sizeofEhdr]⟩).2.mem x = m x :=
    segmentLoop_low hs hx ht _
  simp only [loadImage]
  split
  · rfl
  · split
    · next heq =>
      rw [heq] at hloop
      exact hloop
    · next heq =>
      rw [heq] at hloop
      exact hloop

/-- `vfs_read` as any function of the node, the state, the offset, the size and the buffer. -/
abbrev VfsRead := VfsNode → MemoryState → Nat → Nat → Nat → Bool × MemoryState

/-- `load_elf_program_from_vfs` over a `vfs_read` that may change more than its buffer. -/
def loadElfProgram (L : Layout) (typeFile : Nat) (read : VfsRead) (s : MemoryState)
    (node : Option VfsNode) (entryPointOut : Option Nat) : Option Loaded :=
  match node, entryPointOut with
  | some node, some out =>
    if node.type ≠ typeFile then some ⟨.error .notRegular, some out, s, []⟩
    else if node.size < sizeofEhdr then some ⟨.error .tooSmall, some out, s, []⟩
    else
      (kmalloc L s node.size).map fun r =>
        let image := r.1
        let s := r.2
        if image = 0 then ⟨.error .kmallocFailed, some out, s, []⟩
        else
          let file := read node s 0 node.size image
          let s := file.2
          if file.1 = false then ⟨.error .loadFailed, some out, kfree s image, []⟩
          else
            let l := loadImage L image node.size s.mem
            let s := { s with mem := l.2.mem }
            match l.1 with
            | .error e => ⟨.error e, some out, kfree s image, l.2.log⟩
            | .ok entry => ⟨.ok (), some entry, kfree s image, l.2.log⟩
  | _, _ => some ⟨.error .nullArgument, entryPointOut, s, []⟩

def Vfs.readState (V : Vfs) : VfsRead := fun node s offset size buf =>
  ((V.read node s.mem offset size buf).1, { s with mem := (V.read node s.mem offset size buf).2 })

theorem loadElfProgramFromVfs_eq (L : Layout) (V : Vfs) (s : MemoryState)
    (node : Option VfsNode) (entryPointOut : Option Nat) :
    loadElfProgramFromVfs L V s node entryPointOut =
      loadElfProgram L V.typeFile V.readState s node entryPointOut := by
  cases node with
  | none => rfl
  | some node =>
    cases entryPointOut with
    | none => rfl
    | some out => rfl

/-- `vfs_read` leaves the block list as it found it. -/
def VfsRead.KeepsHeap (read : VfsRead) : Prop :=
  ∀ node s offset size buf, blockList (read node s offset size buf).2 = blockList s

theorem loadElfProgram_blockList {read : VfsRead} {node : Option VfsNode}
    (h : HeapRep L s bs) (hread : read.KeepsHeap)
    (hsize : ∀ n, node = some n → n.size ≤ heapSize)
    (hr : loadElfProgram L typeFile read s node out = some r) :
    blockList r.state = blockList s := by
  have hheap : heapSize = 524288 := rfl
  cases node with
  | none =>
    cases hr
    rfl
  | some node =>
  cases out with
  | none =>
    cases hr
    rfl
  | some out =>
  have hfits := hsize node rfl
  rw [loadElfProgram] at hr
  split at hr
  · cases hr
    rfl
  split at hr
  · cases hr
    rfl
  next hehdr =>
  have hpos : 0 < node.size := by
    simp only [sizeofEhdr] at hehdr
    omega
  rcases kmalloc_spec h hpos (by omega) with ⟨-, hk⟩ | ⟨pre, c, post, s₁, hfit, hk, h₁, -, -⟩
  · rw [hk] at hr
    cases hr
    rfl
  · have hne : ¬ c.addr + 32 = 0 := by omega
    simp only [hk, Option.map_some, hne, if_false, Option.some.injEq] at hr
    have h₂ := h₁.of_blockList (hread node s₁ 0 node.size (c.addr + 32))
    generalize read node s₁ 0 node.size (c.addr + 32) = file at hr h₂
    split at hr
    · subst hr
      exact h.blockList_giveBack hfit h₂
    · have h₃ := h₂.of_sameOn fun x hx => by
        obtain ⟨b, hb, hl, hu⟩ := hx
        have hbb := h₂.bounds hb
        have htable : ¬ TableByte L x := by
          intro ht
          have := ht.off_heap
          omega
        have hbase : userProgramBase = 0x00800000 := rfl
        exact loadImage_low node.size_lt (by omega) htable (c.addr + 32) file.2.mem
      generalize loadImage L (c.addr + 32) node.size file.2.mem = l at hr h₃
      split at hr
      · subst hr
        exact h.blockList_giveBack hfit h₃
      · subst hr
        exact h.blockList_giveBack hfit h₃

section
variable {L : Layout} {fs : FileSystem} {σ : Type} {bs : List Block}

/-- A scan that does not divide by zero ends with the heap as it began. -/
theorem scanDirectory_gives_back {visit : Visit σ} (h : HeapRep L heap bs)
    (hmax : fs.gBlockSize ≤ heapSize)
    (hok : scanDirectory L fs disk visit inode ⟨heap, blockBuf, 0, result⟩ = .ok st) :
    HeapRep L st.heap bs := by
  rcases Nat.eq_zero_or_pos fs.gBlockSize with hzero | hpos
  · rw [scanDirectory, if_pos hzero] at hok
    cases hok
  · exact scanDirectory_heap hpos hmax h hok

theorem findInodeInDir_gives_back (h : HeapRep L heap bs) (hmax : fs.gBlockSize ≤ heapSize)
    (hok : findInodeInDir L disk heap blockBuf inode fs dir name = .ok st) :
    HeapRep L st.heap bs := by
  obtain ⟨ino, -, hok⟩ := bind_ok hok
  split at hok
  · exact scanDirectory_gives_back h hmax hok
  · cases hok
    exact h

theorem ext2Lookup_gives_back (h : HeapRep L heap bs) (hmax : fs.gBlockSize ≤ heapSize)
    (hok : ext2Lookup L disk heap blockBuf inode fs dir name = .ok st) :
    HeapRep L st.heap bs := by
  obtain ⟨ino, -, hok⟩ := bind_ok hok
  split at hok
  · exact scanDirectory_gives_back h hmax hok
  · cases hok
    exact h

theorem ext2Ls_gives_back {gdt : Option FileSystem} (h : HeapRep L heap bs)
    (hmax : ∀ fs, gdt = some fs → fs.gBlockSize ≤ heapSize)
    (hok : ext2Ls L disk heap blockBuf inode gdt dir out = .ok st) : HeapRep L st.heap bs := by
  cases gdt with
  | none =>
    cases hok
    exact h
  | some fs =>
    obtain ⟨ino, -, hok⟩ := bind_ok hok
    split at hok
    · exact scanDirectory_gives_back h (hmax fs rfl) hok
    · cases hok
      exact h

end

/-- The calls of the file system and of the loader that use the heap, with all they depend on. -/
inductive LendingCall where
  | findInodeInDir (fs : FileSystem) (disk : Disk) (blockBuf inode : Mem) (parentInode : Nat)
      (name : Text)
  | ext2Lookup (fs : FileSystem) (disk : Disk) (blockBuf inode : Mem) (dirInodeNum : Nat)
      (name : Text)
  | ext2Ls (fs : Option FileSystem) (disk : Disk) (blockBuf inode : Mem) (dirInodeNum : Nat)
      (out : Console)
  | loadElf (typeFile : Nat) (read : VfsRead) (node : Option VfsNode) (entryPointOut : Option Nat)

/-- What a call asks `kmalloc` for is no more than the heap has. -/
def LendingCall.Fits : LendingCall → Prop
  | findInodeInDir fs .. => fs.gBlockSize ≤ heapSize
  | ext2Lookup fs .. => fs.gBlockSize ≤ heapSize
  | ext2Ls gdt .. => ∀ fs, gdt = some fs → fs.gBlockSize ≤ heapSize
  | loadElf _ read node _ => read.KeepsHeap ∧ ∀ n, node = some n → n.size ≤ heapSize

/-- A call returns, and leaves a state behind. -/
def LendingCall.Returns (L : Layout) (s : MemoryState) (s' : MemoryState) : LendingCall → Prop
  | findInodeInDir fs disk blockBuf inode dir name =>
    ∃ st, KernelCustom.findInodeInDir L disk s blockBuf inode fs dir name = .ok st ∧ s' = st.heap
  | ext2Lookup fs disk blockBuf inode dir name =>
    ∃ st, KernelCustom.ext2Lookup L disk s blockBuf inode fs dir name = .ok st ∧ s' = st.heap
  | ext2Ls gdt disk blockBuf inode dir out =>
    ∃ st, KernelCustom.ext2Ls L disk s blockBuf inode gdt dir out = .ok st ∧ s' = st.heap
  | loadElf typeFile read node out =>
    ∃ r, loadElfProgram L typeFile read s node out = some r ∧ s' = r.state

/-- No call leaks heap, whichever way it returns. -/
theorem heap_block_list_restored (h : Reachable L WithinHeap c) {call : LendingCall}
    (hfits : call.Fits) (hret : call.Returns L c.heap s') : blockList s' = blockList c.heap := by
  obtain ⟨bs, hrep, -⟩ := h.sound fun _ _ hl => hl.fits
  cases call with
  | findInodeInDir fs disk blockBuf inode dir name =>
    obtain ⟨st, hok, rfl⟩ := hret
    rw [(findInodeInDir_gives_back hrep hfits hok).blockList_eq, hrep.blockList_eq]
  | ext2Lookup fs disk blockBuf inode dir name =>
    obtain ⟨st, hok, rfl⟩ := hret
    rw [(ext2Lookup_gives_back hrep hfits hok).blockList_eq, hrep.blockList_eq]
  | ext2Ls gdt disk blockBuf inode dir out =>
    obtain ⟨st, hok, rfl⟩ := hret
    rw [(ext2Ls_gives_back hrep hfits hok).blockList_eq, hrep.blockList_eq]
  | loadElf typeFile read node out =>
    obtain ⟨r, hok, rfl⟩ := hret
    exact loadElfProgram_blockList hrep hfits.1 hfits.2 hok

/-- A file of 100 bytes whose contents `vfs_read` leaves as the heap has them. -/
theorem heap_block_list_restored_after_bad_magic :
    ∃ r, loadElfProgram Layout.sample 1 (fun _ s _ _ _ => (true, s))
        (heapInit Layout.sample bootMemory) (some ⟨0, 1, 100, by decide⟩) (some 0) = some r ∧
      blockList r.state = blockList (heapInit Layout.sample bootMemory) := by
  have hsome : (loadElfProgram Layout.sample 1 (fun _ s _ _ _ => (true, s))
      (heapInit Layout.sample bootMemory) (some ⟨0, 1, 100, by decide⟩) (some 0)).isSome := by
    decide +kernel
  obtain ⟨r, hr⟩ := Option.isSome_iff_exists.1 hsome
  have hfits : (LendingCall.loadElf 1 (fun _ s _ _ _ => (true, s)) (some ⟨0, 1, 100, by decide⟩)
      (some 0)).Fits := by
    refine ⟨fun _ _ _ _ _ => rfl, fun n hn => ?_⟩
    cases hn
    exact (by decide : 100 ≤ heapSize)
  have hreach : Reachable Layout.sample WithinHeap
      ⟨heapInit Layout.sample bootMemory, fun _ => none⟩ := .init rfl
  exact ⟨r, hr, heap_block_list_restored hreach hfits ⟨r, hr, rfl⟩⟩

end KernelCustom
