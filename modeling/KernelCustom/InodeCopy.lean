import KernelCustom.StaleInodes

namespace KernelCustom
open Word32 ByteStore
set_option autoImplicit true

/-- `sizeof(struct ext2_inode)`. -/
def inodeStructSize : Nat := 128

/-- The memory from `out_inode` on, and the indices that have been written. -/
structure InodeCopy where
  outInode : Mem
  written : List Nat

/-- The copy loop of `read_inode`, with the number of bytes that are left. -/
def copyInode (src : Mem) : Nat → Nat → InodeCopy → InodeCopy
  | 0, _, c => c
  | left + 1, i, c =>
    copyInode src left (i + 1)
      ⟨fun x => if x = i then src i else c.outInode x, c.written ++ [i]⟩

/-- `read_fs_block` into a buffer that may be too small. The code goes on behind the overrun, so the
block is read whole here. Of more than 256 sectors the drive gives only some, and `disk_read`
hangs. -/
def readBlockPast (fs : FileSystem) (disk : Disk) (blockId : Nat) : Except Stuck Mem :=
  if 256 < fs.gBlockSize / 512 then .error .hang
  else readFsBlock fs disk blockId zeroed 0 fs.gBlockSize

/-- `read_inode` again, byte by byte, with the indices that it writes, and also for blocks that are
larger than `safe_inode_buf`. -/
def readInodeCopy (fs : FileSystem) (disk : Disk) (inodeNum : Nat) (outInode : Mem) :
    Except Stuck InodeCopy :=
  if inodeNum = 0 ∨ fs.gSb.inodesCount < inodeNum then .ok ⟨outInode, []⟩
  else
    let localInodeIdx := inodeNum - 1
    let inodeSize := fs.gInodeSize
    if inodeSize = 0 then .error .divZero
    else
      let inodesPerBlock := fs.gBlockSize / inodeSize
      if inodesPerBlock = 0 then .error .hang
      else
        let inodeTableBlock := bgInodeTable fs.fsGdt 0
        let blockNum := wrap (inodeTableBlock + localInodeIdx / inodesPerBlock)
        let offset := wrap (localInodeIdx % inodesPerBlock * inodeSize)
        (readBlockPast fs disk blockNum).map fun safeInodeBuf =>
          copyInode (fun i => safeInodeBuf (offset + i)) inodeSize 0 ⟨outInode, []⟩

/-- The indices of `out_inode` that a call writes. A call that stops has not come to the copy. -/
def writtenIndices (fs : FileSystem) (disk : Disk) (inodeNum : Nat) (outInode : Mem) : List Nat :=
  match readInodeCopy fs disk inodeNum outInode with
  | .ok c => c.written
  | .error _ => []

/-- What `kmain` has set once a superblock has passed its only check. The descriptor block is
whatever the drive holds. -/
structure SuperblockAccepted (sb : Superblock) (fs : FileSystem) : Prop where
  magic : sb.magic = 0xEF53
  superblock : fs.gSb = sb
  sizes : fsInit fs.ext2StartLba sb = .ok { fs with fsGdt := zeroed }

/-- The block of the inode table that `read_inode` asks for. -/
def FileSystem.inodeBlock (fs : FileSystem) (n : Nat) : Nat :=
  wrap (bgInodeTable fs.fsGdt 0 + (n - 1) / (fs.gBlockSize / fs.gInodeSize))

/-- A call comes to the copy: the number is valid, an inode fits in a block, the drive can count the
sectors of the block, and the number of the block is allowed. -/
structure FileSystem.Copies (fs : FileSystem) (n : Nat) : Prop where
  valid : ValidInode fs n
  inode_le : fs.gInodeSize ≤ fs.gBlockSize
  sectors_le : fs.gBlockSize / 512 ≤ 256
  allowed : fs.inodeBlock n ≤ 0x100000

/-- The bytes that the loop copies for a valid number, from `src` on. -/
def copySource (fs : FileSystem) (disk : Disk) (n : Nat) : Except Stuck Mem :=
  if fs.gInodeSize = 0 then .error .divZero
  else if fs.gBlockSize / fs.gInodeSize = 0 then .error .hang
  else
    (readBlockPast fs disk (fs.inodeBlock n)).map fun safeInodeBuf i =>
      safeInodeBuf (wrap ((n - 1) % (fs.gBlockSize / fs.gInodeSize) * fs.gInodeSize) + i)

theorem Mounted.superblockAccepted (hm : Mounted disk fs) : SuperblockAccepted fs.gSb fs :=
  ⟨hm.magic, rfl, hm.sizes⟩

/-- A loop with `left` rounds to go copies the next `left` bytes and writes nothing else. -/
theorem copyInode_spec (src : Mem) (left i : Nat) (c : InodeCopy) :
    (∀ x, (copyInode src left i c).outInode x =
      if i ≤ x ∧ x < i + left then src x else c.outInode x) ∧
    (copyInode src left i c).written = c.written ++ List.range' i left := by
  induction left generalizing i c with
  | zero =>
    refine ⟨fun x => ?_, ?_⟩
    · rw [copyInode, if_neg (by omega)]
    · rw [copyInode, List.range'_zero, List.append_nil]
  | succ left ih =>
    obtain ⟨hmem, hwritten⟩ := ih (i + 1)
      ⟨fun x => if x = i then src i else c.outInode x, c.written ++ [i]⟩
    refine ⟨fun x => ?_, ?_⟩
    · rw [copyInode, hmem]
      dsimp only
      by_cases hx : x = i
      · rw [if_neg (by omega), if_pos hx, if_pos (by omega), hx]
      · by_cases hlater : i + 1 ≤ x ∧ x < i + 1 + left
        · rw [if_pos hlater, if_pos (by omega)]
        · rw [if_neg hlater, if_neg hx, if_neg (by omega)]
    · rw [copyInode, hwritten, List.append_assoc, List.range'_succ, List.singleton_append]

theorem not_ok_of_error (e : Stuck) : ¬ ∃ src, (.error e : Except Stuck Mem) = .ok src := by
  rintro ⟨_, h⟩
  cases h

/-- The source of the copy is there for the numbers for which a call comes to the copy. -/
theorem copySource_ok_iff (hn : ValidInode fs n) (hzero : fs.gInodeSize ≠ 0) (disk : Disk) :
    (∃ src, copySource fs disk n = .ok src) ↔ fs.Copies n := by
  rw [copySource, if_neg hzero]
  by_cases hper : fs.gBlockSize / fs.gInodeSize = 0
  · rw [if_pos hper]
    refine iff_of_false (not_ok_of_error _) fun h => ?_
    have := Nat.div_pos h.inode_le (by omega)
    omega
  · have hle := (Nat.div_ne_zero_iff.1 hper).2
    rw [if_neg hper, readBlockPast]
    by_cases hsec : 256 < fs.gBlockSize / 512
    · rw [if_pos hsec]
      refine iff_of_false (not_ok_of_error _) fun h => ?_
      exact absurd h.sectors_le (Nat.not_le.2 hsec)
    · rw [if_neg hsec]
      by_cases hid : 0x100000 < fs.inodeBlock n
      · rw [readFsBlock, if_pos hid]
        refine iff_of_false (not_ok_of_error _) fun h => ?_
        exact absurd h.allowed (Nat.not_le.2 hid)
      · rw [readFsBlock_of_le (Nat.not_lt.1 hid) (Nat.le_refl _)]
        exact iff_of_true ⟨_, rfl⟩ ⟨hn, hle, Nat.not_lt.1 hsec, Nat.not_lt.1 hid⟩

/-- A block that fits in `safe_inode_buf` is read as by `read_inode`. -/
theorem copySource_of_inodeSource (h : inodeSource fs disk n = .ok src) :
    copySource fs disk n = .ok src := by
  rw [inodeSource] at h
  rw [copySource]
  split at h
  · cases h
  next hzero =>
  rw [if_neg hzero]
  split at h
  · cases h
  next hper =>
  obtain ⟨buf, hread, rfl⟩ := map_ok h
  obtain ⟨hid, hcap, rfl⟩ := readFsBlock_ok hread
  rw [if_neg hper, readBlockPast, if_neg (by omega), FileSystem.inodeBlock,
    readFsBlock_of_le hid (Nat.le_refl _)]
  rfl

section
variable (fs : FileSystem) (disk : Disk) (n : Nat) (outInode : Mem)

theorem readInodeCopy_eq_map (hn : ValidInode fs n) :
    readInodeCopy fs disk n outInode =
      (copySource fs disk n).map fun src => copyInode src fs.gInodeSize 0 ⟨outInode, []⟩ := by
  rw [ValidInode] at hn
  rw [readInodeCopy, if_neg (by omega), copySource]
  by_cases hzero : fs.gInodeSize = 0
  · rw [if_pos hzero, if_pos hzero]
    rfl
  rw [if_neg hzero, if_neg hzero]
  by_cases hper : fs.gBlockSize / fs.gInodeSize = 0
  · rw [if_pos hper, if_pos hper]
    rfl
  rw [if_neg hper, if_neg hper]
  dsimp only [FileSystem.inodeBlock]
  cases readBlockPast fs disk _ <;> rfl

/-- Where `read_inode` comes back without an overrun, the loop leaves what it leaves. -/
theorem readInodeCopy_outInode (h : readInode fs disk n outInode = .ok inode) :
    (readInodeCopy fs disk n outInode).map InodeCopy.outInode = .ok inode := by
  by_cases hn : ValidInode fs n
  · rw [readInode_eq_map hn] at h
    obtain ⟨src, hsource, rfl⟩ := map_ok h
    rw [readInodeCopy_eq_map fs disk n outInode hn, copySource_of_inodeSource hsource]
    refine congrArg Except.ok (funext fun x => ?_)
    rw [(copyInode_spec _ _ _ _).1 x, Nat.zero_add]
    simp only [Nat.zero_le, true_and]
  · rw [readInode_invalid hn] at h
    rw [readInodeCopy, if_pos (by rw [ValidInode] at hn; omega)]
    exact h

theorem writtenIndices_of_copies (h : fs.Copies n) (hzero : fs.gInodeSize ≠ 0) :
    writtenIndices fs disk n outInode = List.range fs.gInodeSize := by
  obtain ⟨src, hsource⟩ := (copySource_ok_iff h.valid hzero disk).2 h
  rw [writtenIndices, readInodeCopy_eq_map fs disk n outInode h.valid, hsource]
  simp only [Except.map]
  rw [(copyInode_spec _ _ _ _).2, List.nil_append, List.range_eq_range']

theorem writtenIndices_of_not_copies (h : ¬ fs.Copies n) (hzero : fs.gInodeSize ≠ 0) :
    writtenIndices fs disk n outInode = [] := by
  rw [writtenIndices]
  by_cases hn : ValidInode fs n
  · rw [readInodeCopy_eq_map fs disk n outInode hn]
    cases hsource : copySource fs disk n with
    | error e => rfl
    | ok src => exact absurd ((copySource_ok_iff hn hzero disk).1 ⟨src, hsource⟩) h
  · rw [readInodeCopy, if_pos (by rw [ValidInode] at hn; omega)]

end

/-- `read_inode` copies as many bytes as the superblock gives an inode. It stays inside the struct
exactly when that are at most 128, or when the call does not come to the copy. -/
theorem readInode_stays_inside_iff (ha : SuperblockAccepted sb fs) (disk : Disk) (n : Nat)
    (outInode : Mem) :
    (∀ i ∈ writtenIndices fs disk n outInode, i < inodeStructSize) ↔
      sb.inodeBytes ≤ 128 ∨ ¬ fs.Copies n := by
  have hsize : fs.gInodeSize = sb.inodeBytes := (fsInit_ok ha.sizes).2.1
  have hzero : fs.gInodeSize ≠ 0 := @fsInit_inode_pos _ _ { fs with fsGdt := zeroed } ha.sizes
  by_cases hc : fs.Copies n
  · rw [writtenIndices_of_copies fs disk n outInode hc hzero, hsize, inodeStructSize]
    constructor
    · intro h
      left
      by_contra hbig
      exact absurd (h 128 (List.mem_range.2 (by omega))) (by decide)
    · rintro (hle | hnot) i hi
      · have := List.mem_range.1 hi
        omega
      · exact absurd hc hnot
  · rw [writtenIndices_of_not_copies fs disk n outInode hc hzero]
    exact ⟨fun _ => .inr hc, fun _ i hi => absurd hi List.not_mem_nil⟩

theorem readInode_stays_inside_in_twoGroupImage : ∃ fs,
    mount twoGroupImage zeroed = .ok fs ∧ SuperblockAccepted twoGroupSuperblock fs ∧
      ∀ i ∈ writtenIndices fs twoGroupImage 2 zeroed, i < inodeStructSize := by
  obtain ⟨fs, hmount, hsb, -⟩ := mount_twoGroupImage
  have ha : SuperblockAccepted twoGroupSuperblock fs :=
    hsb ▸ (mount_mounted hmount).superblockAccepted
  exact ⟨fs, hmount, ha, (readInode_stays_inside_iff ha twoGroupImage 2 zeroed).2
    (.inl (by decide))⟩

/-- A raw image in revision 1, with 1 KiB blocks and inodes of 256 bytes. -/
def wideInodeImage : Disk := sparseDisk
  [(1024, 16), (1044, 1), (1064, 8), (1080, 0x53), (1081, 0xEF), (1100, 1), (1113, 1), (2056, 5),
    (5376, 0xED), (5377, 0x41)]

/-- The root inode of an image with inodes of 256 bytes goes over the struct of `kmain`. -/
theorem readInode_writes_past_struct : ¬ ∀ sb fs, SuperblockAccepted sb fs → ∀ disk n outInode,
    ∀ i ∈ writtenIndices fs disk n outInode, i < inodeStructSize := by
  intro h
  have hmount : ∃ fs, mount wideInodeImage zeroed = .ok fs ∧
      (writtenIndices fs wideInodeImage 2 zeroed).contains 255 = true :=
    exists_ok (by decide +kernel)
  obtain ⟨fs, hmount, hmem⟩ := hmount
  have hlt := h fs.gSb fs (mount_mounted hmount).superblockAccepted wideInodeImage 2 zeroed 255
    (List.contains_iff_mem.1 hmem)
  exact absurd hlt (by decide)

end KernelCustom
