import KernelCustom.DirectoryScan
import KernelCustom.HeapRuns

namespace KernelCustom
open Word32 ByteStore CString BlockTiling EarlyExit
set_option autoImplicit true

/-- The heap while a directory is scanned: as it was before, or with one block lent to
`indirect_buf`. -/
inductive Lending (L : Layout) (n : Nat) (bs : List Block) (heap : MemoryState) : Nat → Prop
  | idle : HeapRep L heap bs → Lending L n bs heap 0
  | lent : FirstFit (footprint n) bs pre c post →
      HeapRep L heap (pre ++ taken (footprint n) 48 c :: (remainder (footprint n) 48 c ++ post)) →
      Lending L n bs heap (c.addr + 32)

/-- Stores into a payload in use leave the block list alone. -/
theorem HeapRep.fill_payload (h : HeapRep L s bs) (hb : b ∈ bs) (hf : b.free = false)
    (hm : ∀ x, x < b.addr + 32 ∨ b.addr + b.size ≤ x → m x = s.mem x) :
    HeapRep L { s with mem := m } bs := by
  apply h.of_sameOn
  rintro x ⟨d, hd, hl, hu⟩
  apply hm
  by_contra hin
  have hclient : ClientByte L bs x := .inr (.inr ⟨b, hb, hf, by omega, by omega⟩)
  have := h.client_off_header hclient hd
  omega

/-- A round looks for its block id in the state it is in, or in one with the indirect block open. -/
theorem blockIdOf_ok {st st₁ : Scan σ}
    (hid : blockIdOf L fs disk inode blk st = .ok (st₁, blockId)) :
    (st₁ = st ∨ openIndirect L fs disk inode st = .ok st₁) ∧
      (12 ≤ blk → blockId ≠ none → st₁.indirectBuf ≠ 0) := by
  rw [blockIdOf] at hid
  split at hid
  · cases hid
    exact ⟨.inl rfl, fun hle => by omega⟩
  split at hid
  · cases hid
    exact ⟨.inl rfl, fun _ hne => absurd rfl hne⟩
  obtain ⟨st₂, hopen, hid⟩ := bind_ok hid
  dsimp only at hid
  split at hid
  · cases hid
    exact ⟨.inr hopen, fun _ hne => absurd rfl hne⟩
  next hbuf =>
  split at hid
  · cases hid
    exact ⟨.inr hopen, fun _ hne => absurd rfl hne⟩
  · cases hid
    exact ⟨.inr hopen, fun _ _ => hbuf⟩

theorem scanBlock_keeps {st st' : Scan σ} {visit : Visit σ}
    (h : scanBlock fs disk visit blockId st = .ok (st', stop)) :
    st'.heap = st.heap ∧ st'.indirectBuf = st.indirectBuf := by
  obtain ⟨buf, -, h⟩ := bind_ok h
  split at h
  · cases h
  · cases h
    exact ⟨rfl, rfl⟩

section
variable {L : Layout} {fs : FileSystem} {disk : Disk} {σ : Type} {bs : List Block}
  (hpos : 0 < fs.gBlockSize) (hmax : fs.gBlockSize ≤ heapSize)
include hpos hmax

theorem openIndirect_lending {st st' : Scan σ}
    (h : Lending L fs.gBlockSize bs st.heap st.indirectBuf)
    (hok : openIndirect L fs disk inode st = .ok st') :
    Lending L fs.gBlockSize bs st'.heap st'.indirectBuf := by
  have hheap : heapSize = 524288 := rfl
  rw [openIndirect] at hok
  split at hok
  · cases hok
    exact h
  · next hbuf =>
    rw [not_not.1 hbuf] at h
    cases h with
    | idle hrep =>
      rcases kmalloc_spec hrep hpos (by omega) with
        ⟨-, hk⟩ | ⟨pre, c, post, s', hfit, hk, hrep', -, -⟩
      · rw [hk] at hok
        cases hok
        dsimp only
        rw [not_not.1 hbuf]
        exact .idle hrep
      · rw [hk] at hok
        simp only [Nat.add_eq_zero_iff, OfNat.ofNat_ne_zero, and_false, if_false] at hok
        cases hread : readFsBlock fs disk (iBlock inode 12) s'.mem (c.addr + 32)
            fs.gBlockSize with
        | error e =>
          rw [hread] at hok
          cases hok
        | ok m =>
          rw [hread] at hok
          cases hok
          have hsize := taken_size 48 hfit.enough
          have hfp := footprint_eq (n := fs.gBlockSize) (by omega)
          refine .lent hfit (hrep'.fill_payload (b := taken (footprint fs.gBlockSize) 48 c)
            (by simp) (taken_free _ _ _) ?_)
          intro x hx
          obtain ⟨-, hcap, rfl⟩ := readFsBlock_ok hread
          rw [taken_addr] at hx
          rw [diskRead, if_neg (by omega)]

theorem scanBlocks_lending {visit : Visit σ} {st st' : Scan σ}
    (h : Lending L fs.gBlockSize bs st.heap st.indirectBuf)
    (hok : scanBlocks L fs disk visit inode left blk st = .ok st') :
    Lending L fs.gBlockSize bs st'.heap st'.indirectBuf := by
  induction left generalizing blk st with
  | zero =>
    cases hok
    exact h
  | succ left ih =>
    obtain ⟨⟨st₁, blockId⟩, hid, hok⟩ := bind_ok hok
    have h₁ : Lending L fs.gBlockSize bs st₁.heap st₁.indirectBuf := by
      rcases (blockIdOf_ok hid).1 with rfl | hopen
      · exact h
      · exact openIndirect_lending hpos hmax h hopen
    dsimp only at hok
    split at hok
    · cases hok
      exact h₁
    · exact ih h₁ hok
    · obtain ⟨⟨st₂, stop⟩, hscan, hok⟩ := bind_ok hok
      have h₂ : Lending L fs.gBlockSize bs st₂.heap st₂.indirectBuf := by
        obtain ⟨hheap, hbuf⟩ := scanBlock_keeps hscan
        rw [hheap, hbuf]
        exact h₁
      dsimp only at hok
      split at hok
      · cases hok
        exact h₂
      · exact ih h₂ hok

/-- A scan gives the heap back as it was. -/
theorem scanDirectory_heap {visit : Visit σ} (h : HeapRep L heap bs)
    (hok : scanDirectory L fs disk visit inode ⟨heap, blockBuf, 0, result⟩ = .ok st) :
    HeapRep L st.heap bs := by
  simp only [scanDirectory] at hok
  split at hok
  · cases hok
  split at hok
  · cases hok
    exact h
  · cases hscan : scanBlocks L fs disk visit inode
        (wrap (iSize inode + fs.gBlockSize - 1) / fs.gBlockSize) 0
        ⟨heap, blockBuf, 0, result⟩ with
    | error e =>
      rw [hscan] at hok
      cases hok
    | ok st₁ =>
      rw [hscan] at hok
      cases hok
      have hl := scanBlocks_lending hpos hmax (.idle h) hscan
      generalize hbuf : st₁.indirectBuf = p at hl
      dsimp only
      cases hl with
      | idle hrep =>
        rw [if_neg (not_not.2 hbuf)]
        exact hrep
      | lent hfit hrep =>
        rw [if_pos (by omega), hbuf]
        exact h.giveBack hfit hrep

end

/-- An inode without its indirect block. -/
def withoutIndirect (inode : Mem) : Mem := fun i => if 88 ≤ i ∧ i < 92 then 0 else inode i

theorem withoutIndirect_sameOn (inode : Mem) : SameOn inode (withoutIndirect inode) 0 88 := by
  intro x _ hx
  rw [withoutIndirect, if_neg (by omega)]

theorem iBlock_withoutIndirect (inode : Mem) (hk : k < 12) :
    iBlock (withoutIndirect inode) k = iBlock inode k :=
  (withoutIndirect_sameOn inode).load32 (by omega) (by omega)

theorem iSize_withoutIndirect (inode : Mem) : iSize (withoutIndirect inode) = iSize inode :=
  (withoutIndirect_sameOn inode).load32 (by omega) (by omega)

theorem iBlock_withoutIndirect_last (inode : Mem) : iBlock (withoutIndirect inode) 12 = 0 := by
  have hzero : ∀ i, 88 ≤ i → i < 92 → withoutIndirect inode i = 0 := by
    intro i hl hu
    rw [withoutIndirect, if_pos ⟨hl, hu⟩]
  simp only [iBlock, load32]
  rw [hzero _ (by decide) (by decide), hzero _ (by decide) (by decide),
    hzero _ (by decide) (by decide), hzero _ (by decide) (by decide)]
  rfl

/-- When `kmalloc` refuses, a scan goes no further than the direct blocks. -/
theorem scanBlocks_withoutIndirect {st : Scan σ} {visit : Visit σ}
    (hno : kmalloc L st.heap fs.gBlockSize = some (0, st.heap)) (hbuf : st.indirectBuf = 0) :
    scanBlocks L fs disk visit inode left blk st =
      scanBlocks L fs disk visit (withoutIndirect inode) left blk st := by
  induction left generalizing blk st with
  | zero => rfl
  | succ left ih =>
    rw [scanBlocks, scanBlocks, blockIdOf, blockIdOf]
    by_cases hdirect : blk < 12
    · rw [if_pos hdirect, if_pos hdirect, iBlock_withoutIndirect inode hdirect]
      simp only [bind, Except.bind]
      split
      · rfl
      · exact ih hno hbuf
      · rw [scanBlock]
        generalize readFsBlock fs disk _ _ _ _ = block
        cases block with
        | error e => rfl
        | ok buf =>
          dsimp only [bind, Except.bind]
          generalize scanEntries fs.gBlockSize visit buf _ _ _ = entries
          cases entries with
          | none => rfl
          | some r =>
            dsimp only
            split
            · rfl
            · exact ih hno hbuf
    · rw [if_neg hdirect, if_neg hdirect, if_pos (iBlock_withoutIndirect_last inode)]
      by_cases hzero : iBlock inode 12 = 0
      · rw [if_pos hzero]
        rfl
      · have hopen : openIndirect L fs disk inode st = .ok st := by
          rw [openIndirect, if_neg (not_not.2 hbuf), hno]
          rfl
        rw [if_neg hzero, hopen]
        simp only [bind, Except.bind, if_pos hbuf]

/-- The blocks of an inode without its indirect block hold the first entries. -/
theorem BlocksHold.withoutIndirect
    (h : BlocksHold blockAt gBlockSize ((List.range n).map (fileBlock blockAt ino)) es) :
    ∃ es₁ es₂, es = es₁ ++ es₂ ∧ BlocksHold blockAt gBlockSize
      ((List.range n).map (fileBlock blockAt (withoutIndirect ino))) es₁ := by
  have hcut : List.range n = List.range (min n 12) ++ List.range' (min n 12) (n - 12) := by
    have happend := List.range'_append_1 (s := 0) (m := min n 12) (n := n - 12)
    rw [Nat.zero_add, (by omega : min n 12 + (n - 12) = n)] at happend
    rw [List.range_eq_range', List.range_eq_range', happend]
  rw [hcut, List.map_append] at h ⊢
  obtain ⟨es₁, es₂, rfl, h₁, -⟩ := h.split
  have hsame : (List.range (min n 12)).map (fileBlock blockAt (KernelCustom.withoutIndirect ino)) =
      (List.range (min n 12)).map (fileBlock blockAt ino) := by
    apply List.map_congr_left
    intro blk hblk
    have hlt : blk < 12 := by
      have := List.mem_range.1 hblk
      omega
    rw [fileBlock, fileBlock, if_pos hlt, if_pos hlt, iBlock_withoutIndirect ino hlt]
  refine ⟨es₁, es₂, rfl, ?_⟩
  rw [hsame]
  apply h₁.append_holes
  intro blockId hmem
  obtain ⟨blk, hblk, rfl⟩ := List.mem_map.1 hmem
  have := List.mem_range'_1.1 hblk
  rw [fileBlock, if_neg (by omega), if_pos (iBlock_withoutIndirect_last ino)]

/-- The blocks that a scan goes through: the count that the code computes, cut where the ids of the
indirect block end. -/
def scannedBlocks (fs : FileSystem) (ino : Mem) : Nat :=
  min (wrap (iSize ino + fs.gBlockSize - 1) / fs.gBlockSize) (12 + fs.gBlockSize / 4)

/-- A directory of any size: what `read_inode` brings for its number, and the entries of the blocks
that a scan goes through, at their places on the drive. -/
structure DirectoryReads (fs : FileSystem) (disk : Disk) (dir : Nat) (ino : Mem)
    (entries : List DirEntry) : Prop where
  block_size : fs.gBlockSize = 1024 ∨ fs.gBlockSize = 2048 ∨ fs.gBlockSize = 4096
  inode_size : 128 ≤ fs.gInodeSize
  number : 1 ≤ dir ∧ dir ≤ fs.gSb.inodesCount
  read : readInode fs disk dir zeroed = .ok ino
  directory : isDirectory ino = true
  indirect : 12 < scannedBlocks fs ino → iBlock ino 12 ≤ 0x100000
  blocks : BlocksHold (placedBlock fs disk) fs.gBlockSize
    ((List.range (scannedBlocks fs ino)).map (fileBlock (placedBlock fs disk) ino)) entries

/-- The blocks that a scan goes through are in reach. -/
def DirectoryInReach (fs : FileSystem) (disk : Disk) (dir : Nat) : Prop :=
  ∀ ino, readInode fs disk dir zeroed = .ok ino → BlocksInReach fs disk ino (scannedBlocks fs ino)

/-- Rounds behind the last id of the indirect block do nothing. -/
theorem scanBlocks_cap {st : Scan σ} {visit : Visit σ} (hbs : 4 ≤ fs.gBlockSize)
    (hblk : blk + left = 12 + fs.gBlockSize / 4) (hbuf : 12 < blk → st.indirectBuf ≠ 0)
    (extra : Nat) :
    scanBlocks L fs disk visit ino (left + extra) blk st =
      scanBlocks L fs disk visit ino left blk st := by
  induction left generalizing blk st with
  | zero =>
    cases extra with
    | zero => rfl
    | succ extra =>
      have hopen : openIndirect L fs disk ino st = .ok st := by
        rw [openIndirect, if_pos (hbuf (by omega))]
      rw [Nat.zero_add, scanBlocks, scanBlocks, blockIdOf, if_neg (by omega), hopen]
      have hidx : fs.gBlockSize / 4 ≤ blk - 12 := by omega
      simp only [bind, Except.bind, if_neg (hbuf (by omega)), if_pos hidx, ite_self]
  | succ left ih =>
    rw [Nat.succ_add, scanBlocks, scanBlocks]
    cases hid : blockIdOf L fs disk ino blk st with
    | error e => rfl
    | ok r =>
      obtain ⟨st₁, blockId⟩ := r
      -- behind the direct blocks, a round that goes on has the indirect block in memory
      have hbuf₁ : 12 < blk + 1 → blockId ≠ none → st₁.indirectBuf ≠ 0 :=
        fun hlt hne => (blockIdOf_ok hid).2 (by omega) hne
      simp only [bind, Except.bind]
      split
      · rfl
      · exact ih (by omega) fun hlt => hbuf₁ hlt (Option.some_ne_none _)
      · next heq =>
        cases hscan : scanBlock fs disk visit _ st₁ with
        | error e => rfl
        | ok r =>
          obtain ⟨st₂, stop⟩ := r
          dsimp only
          split
          · rfl
          · refine ih (by omega) fun hlt => ?_
            rw [(scanBlock_keeps hscan).2]
            exact hbuf₁ hlt (Option.some_ne_none _)

/-- A struct whose size is that of so many blocks. -/
def resized (fs : FileSystem) (inode : Mem) (blocks : Nat) : Mem :=
  store32 inode 4 (blocks * fs.gBlockSize)

theorem iBlock_resized (fs : FileSystem) (inode : Mem) (blocks k : Nat) :
    iBlock (resized fs inode blocks) k = iBlock inode k :=
  load32_store32_of_ne inode _ (by omega)

theorem blockCountOf_resized
    (hbs : fs.gBlockSize = 1024 ∨ fs.gBlockSize = 2048 ∨ fs.gBlockSize = 4096) (inode : Mem)
    (hle : blocks ≤ 12 + fs.gBlockSize / 4) :
    iSize (resized fs inode blocks) ≤ (12 + fs.gBlockSize / 4) * fs.gBlockSize ∧
      blockCountOf fs (resized fs inode blocks) = blocks := by
  have hsize : iSize (resized fs inode blocks) = blocks * fs.gBlockSize := by
    apply load32_store32_self
    rcases hbs with h | h | h
    all_goals
      rw [h] at hle ⊢
      omega
  rw [blockCountOf, hsize]
  refine ⟨Nat.mul_le_mul_right _ hle, ?_⟩
  rcases hbs with h | h | h
  all_goals
    rw [h]
    omega

/-- Of a directory that is too long, a scan goes through the blocks that the ids reach. -/
theorem scanDirectory_resized {visit : Visit σ}
    (hbs : fs.gBlockSize = 1024 ∨ fs.gBlockSize = 2048 ∨ fs.gBlockSize = 4096)
    (st : Scan σ) :
    scanDirectory L fs disk visit ino st =
      scanDirectory L fs disk visit (resized fs ino (scannedBlocks fs ino)) st := by
  have hle : scannedBlocks fs ino ≤ 12 + fs.gBlockSize / 4 := Nat.min_le_right _ _
  obtain ⟨hreach, hcount⟩ := blockCountOf_resized hbs ino hle
  obtain ⟨-, -, -, -, hwrap⟩ := blockCount_bounds hbs hreach
  have hids : ∀ k ≤ 12, iBlock (resized fs ino (scannedBlocks fs ino)) k = iBlock ino k :=
    fun k _ => iBlock_resized fs ino _ k
  simp only [scanDirectory, hwrap, hcount, scanBlocks_congr L fs disk hids]
  have hn : wrap (iSize ino + fs.gBlockSize - 1) / fs.gBlockSize =
      scannedBlocks fs ino +
        (wrap (iSize ino + fs.gBlockSize - 1) / fs.gBlockSize - scannedBlocks fs ino) := by
    rw [scannedBlocks]
    omega
  by_cases hcut : scannedBlocks fs ino = 12 + fs.gBlockSize / 4
  · have hcap : scanBlocks L fs disk visit ino (scannedBlocks fs ino +
        (wrap (iSize ino + fs.gBlockSize - 1) / fs.gBlockSize - scannedBlocks fs ino)) 0 st =
          scanBlocks L fs disk visit ino (scannedBlocks fs ino) 0 st :=
      scanBlocks_cap (by omega) ((Nat.zero_add _).trans hcut) (fun h => absurd h (by decide)) _
    rw [← hn] at hcap
    rw [hcap, if_neg (by omega : ¬ wrap (iSize ino + fs.gBlockSize - 1) / fs.gBlockSize = 0),
      if_neg (by omega : ¬ scannedBlocks fs ino = 0)]
  · have heq : wrap (iSize ino + fs.gBlockSize - 1) / fs.gBlockSize = scannedBlocks fs ino := by
      rw [scannedBlocks] at hcut ⊢
      omega
    rw [heq]

/-- What a scan sees of a directory depends on the block list of the heap alone: all entries when
there is room for the indirect block, and those of the direct blocks when there is not. -/
theorem scanDirectory_seen (hd : DirectoryReads fs disk dir ino entries)
    (hreach : DirectoryInReach fs disk dir) (L : Layout) (bs : List Block) :
    ∃ seen : List DirEntry, (∀ e ∈ seen, e ∈ entries) ∧
      (∀ b ∈ bs, b.free = true → footprint fs.gBlockSize ≤ b.size → seen = entries) ∧
      ∀ heap, HeapRep L heap bs → ∀ {σ : Type} (visit : Visit σ) f, Sees visit f →
        ∀ blockBuf result, ∃ st,
          scanDirectory L fs disk visit ino ⟨heap, blockBuf, 0, result⟩ = .ok st ∧
          st.result = (scan f (seen.filter DirEntry.live) result).1 ∧ HeapRep L st.heap bs := by
  have hle : scannedBlocks fs ino ≤ 12 + fs.gBlockSize / 4 := Nat.min_le_right _ _
  have hblocks := hd.blocks.in_reach (hreach ino hd.read) hle
  have hind := hd.indirect
  obtain ⟨hreach, hcount⟩ := blockCountOf_resized hd.block_size ino hle
  obtain ⟨hpos, hmax, -⟩ := blockCount_bounds hd.block_size hreach
  rw [← fileBlock_congr fun k _ => iBlock_resized fs ino (scannedBlocks fs ino) k]
    at hblocks
  rw [← iBlock_resized fs ino (scannedBlocks fs ino) 12] at hind
  have hresize : ∀ {σ : Type} (visit : Visit σ) st,
      scanDirectory L fs disk visit ino st =
        scanDirectory L fs disk visit (resized fs ino (scannedBlocks fs ino)) st :=
    fun _ st => scanDirectory_resized hd.block_size st
  generalize resized fs ino (scannedBlocks fs ino) = ino' at *
  rw [← hcount] at hblocks hind
  by_cases hroom : ∀ b ∈ bs, ¬ (b.free = true ∧ footprint fs.gBlockSize ≤ b.size)
  · obtain ⟨seen, rest, hsplit, hblocks⟩ := hblocks.withoutIndirect
    refine ⟨seen, fun e he => hsplit ▸ List.mem_append_left _ he,
      fun b hb hfree hsize => absurd ⟨hfree, hsize⟩ (hroom b hb), ?_⟩
    intro heap hrep σ visit f hv blockBuf result
    have hno : kmalloc L heap fs.gBlockSize = some (0, heap) := by
      rcases kmalloc_spec hrep hpos (by omega) with ⟨-, hk⟩ | ⟨pre, c, post, s', hfit, -⟩
      · exact hk
      · exact absurd ⟨hfit.free, hfit.enough⟩ (hroom c (by simp [hfit.split]))
    have hsize := iSize_withoutIndirect ino'
    have hcut : blockCountOf fs (withoutIndirect ino') = blockCountOf fs ino' := by
      rw [blockCountOf, blockCountOf, hsize]
    have hscan : scanDirectory L fs disk visit ino' ⟨heap, blockBuf, 0, result⟩ =
        scanDirectory L fs disk visit (withoutIndirect ino') ⟨heap, blockBuf, 0, result⟩ := by
      rw [scanDirectory, scanDirectory, iSize_withoutIndirect]
      dsimp only
      rw [scanBlocks_withoutIndirect hno rfl]
    obtain ⟨st, hst, hres⟩ := scanDirectory_spec hv hd.block_size (hsize ▸ hreach)
      (fun _ => by rw [iBlock_withoutIndirect_last]; decide) (hcut ▸ hblocks)
      (fun _ hne => absurd (iBlock_withoutIndirect_last ino') hne) blockBuf result
    rw [← hscan, ← hresize] at hst
    exact ⟨st, hst, hres, scanDirectory_heap hpos (hmax.trans (by decide)) hrep hst⟩
  · refine ⟨entries, fun e he => he, fun _ _ _ _ => rfl, ?_⟩
    intro heap hrep σ visit f hv blockBuf result
    have hfits : IndirectFits L fs ino' heap := by
      intro _ _
      rcases kmalloc_spec hrep hpos (by omega) with ⟨hnone, -⟩ | ⟨pre, c, post, s', -, hk, -⟩
      · exact absurd hnone hroom
      · exact ⟨c.addr + 32, s', hk, by omega⟩
    obtain ⟨st, hst, hres⟩ := scanDirectory_spec hv hd.block_size hreach hind hblocks hfits
      blockBuf result
    rw [← hresize] at hst
    exact ⟨st, hst, hres, scanDirectory_heap hpos (hmax.trans (by decide)) hrep hst⟩

/-- The three scanners agree on what a directory has, call after call. -/
theorem scanners_seen (hd : DirectoryReads fs disk dir ino entries) (hi : fs.gInodeSize ≤ 128)
    (hreach : DirectoryInReach fs disk dir) (L : Layout) (bs : List Block) :
    ∃ seen : List DirEntry, (∀ e ∈ seen, e ∈ entries) ∧
      (∀ b ∈ bs, b.free = true → footprint fs.gBlockSize ≤ b.size → seen = entries) ∧
      ∀ heap, HeapRep L heap bs → ∀ blockBuf inode,
        (∀ name, ∃ st, findInodeInDir L disk heap blockBuf inode fs dir name = .ok st ∧
          st.result = inodeNamed seen name ∧ HeapRep L st.heap bs) ∧
        (∀ name, ∃ st, ext2Lookup L disk heap blockBuf inode fs dir name = .ok st ∧
          st.result = inodeNamed seen name ∧ HeapRep L st.heap bs) ∧
        ∀ out, ∃ st, ext2Ls L disk heap blockBuf inode (some fs) dir out = .ok st ∧
          st.result.vga = out.vga ++ (seen.filter DirEntry.live).flatMap lsLine ∧
          HeapRep L st.heap bs := by
  obtain ⟨seen, hsub, hfull, hseen⟩ := scanDirectory_seen hd hreach L bs
  refine ⟨seen, hsub, hfull, ?_⟩
  intro heap hrep blockBuf inode
  obtain ⟨hfind, hlook, hls⟩ := scanners_eq hd.number hd.read hd.directory
    ((by decide : 92 ≤ 128).trans hd.inode_size) hi L heap blockBuf inode
  refine ⟨fun name => ?_, fun name => ?_, fun out => ?_⟩
  · obtain ⟨st, hst, hres, hheap⟩ := hseen heap hrep _ _ (visitFind_sees name) blockBuf 0
    rw [scan_find] at hres
    exact ⟨st, (hfind name).trans hst, hres, hheap⟩
  · obtain ⟨st, hst, hres, hheap⟩ := hseen heap hrep _ _ (visitLookup_sees name) blockBuf 0
    rw [scan_find] at hres
    exact ⟨st, (hlook name).trans hst, hres, hheap⟩
  · obtain ⟨st, hst, hres, hheap⟩ := hseen heap hrep _ _ visitLs_sees blockBuf out
    rw [scan_foldl, foldl_listed] at hres
    exact ⟨st, (hls out).trans hst, by rw [hres], hheap⟩

/-- The two finders agree on what a directory has under a name, call after call. -/
theorem finders_seen (hd : DirectoryReads fs disk dir ino entries) (hi : fs.gInodeSize ≤ 128)
    (hreach : DirectoryInReach fs disk dir) (L : Layout) (bs : List Block) :
    ∃ seen : List DirEntry, (∀ e ∈ seen, e ∈ entries) ∧
      ∀ heap, HeapRep L heap bs → ∀ blockBuf inode name,
        (∃ st, findInodeInDir L disk heap blockBuf inode fs dir name = .ok st ∧
          st.result = inodeNamed seen name ∧ HeapRep L st.heap bs) ∧
        ∃ st, ext2Lookup L disk heap blockBuf inode fs dir name = .ok st ∧
          st.result = inodeNamed seen name ∧ HeapRep L st.heap bs := by
  obtain ⟨seen, hsub, -, hseen⟩ := scanners_seen hd hi hreach L bs
  refine ⟨seen, hsub, fun heap hrep blockBuf inode name => ?_⟩
  obtain ⟨hfind, hlook, -⟩ := hseen heap hrep blockBuf inode
  exact ⟨hfind name, hlook name⟩

end KernelCustom
