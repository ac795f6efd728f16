import KernelCustom.Directory
import KernelCustom.InodeTable

namespace KernelCustom
open Word32 ByteStore
set_option autoImplicit true

/-- The block that `read_fs_block` brings. -/
def fsBlock (fs : FileSystem) (disk : Disk) (blockId : Nat) : Mem := fun k =>
  disk (wrap (fs.ext2StartLba + wrap (blockId * (fs.gBlockSize / 512))) % 268435456 * 512 + k)

/-- The block at its place on the drive: the ids count blocks from the start of the partition. -/
def placedBlock (fs : FileSystem) (disk : Disk) (blockId : Nat) : Mem := fun k =>
  disk ((fs.ext2StartLba + blockId * (fs.gBlockSize / 512)) * 512 + k)

/-- The 28 bits of a command are enough for the LBA of a block. -/
def InReach (fs : FileSystem) (blockId : Nat) : Prop :=
  fs.ext2StartLba + blockId * (fs.gBlockSize / 512) < 268435456

instance : Decidable (InReach fs blockId) := inferInstanceAs (Decidable (_ < _))

/-- Two drives from which `read_fs_block` brings the same. -/
def Alike (fs : FileSystem) (disk disk' : Disk) : Prop := readFsBlock fs disk' = readFsBlock fs disk

/-- The id of a block of a file: twelve direct ids, then those of the indirect block. -/
def fileBlock (blockAt : Nat → Mem) (inode : Mem) (blk : Nat) : Nat :=
  if blk < 12 then iBlock inode blk
  else if iBlock inode 12 = 0 then 0
  else load32 (blockAt (iBlock inode 12)) (4 * (blk - 12))

/-- The number of blocks that the size of a file takes. -/
def blockCountOf (fs : FileSystem) (inode : Mem) : Nat :=
  (iSize inode + fs.gBlockSize - 1) / fs.gBlockSize

/-- The first blocks of a file are in reach, and so is the indirect block when it names one of
them. -/
structure BlocksInReach (fs : FileSystem) (disk : Disk) (inode : Mem) (count : Nat) : Prop where
  blocks : ∀ blk < count, fileBlock (placedBlock fs disk) inode blk ≠ 0 →
    InReach fs (fileBlock (placedBlock fs disk) inode blk)
  indirect : 12 < count → iBlock inode 12 ≠ 0 → InReach fs (iBlock inode 12)

theorem fsBlock_eq (fs : FileSystem) (disk : Disk) (blockId : Nat) :
    fsBlock fs disk blockId = fun k =>
      disk ((fs.ext2StartLba + blockId * (fs.gBlockSize / 512)) % 268435456 * 512 + k) := by
  funext k
  rw [fsBlock, wrap_add_wrap, wrap_mod_lba]

theorem InReach.fsBlock_eq (h : InReach fs blockId) (disk : Disk) :
    fsBlock fs disk blockId = placedBlock fs disk blockId := by
  funext k
  rw [KernelCustom.fsBlock_eq, placedBlock, Nat.mod_eq_of_lt h]

theorem readFsBlock_brings (disk : Disk) (m : Mem) (buf : Nat) (hid : blockId ≤ 0x100000)
    (hcap : fs.gBlockSize ≤ capacity) (hsec : 512 * (fs.gBlockSize / 512) = fs.gBlockSize) :
    ∃ m', readFsBlock fs disk blockId m buf capacity = .ok m' ∧
      ∀ x < fs.gBlockSize, m' (buf + x) = fsBlock fs disk blockId x := by
  refine ⟨_, readFsBlock_of_le hid hcap, ?_⟩
  intro x hx
  rw [diskRead, if_pos (by omega), Nat.add_sub_cancel_left, fsBlock]

theorem iBlock_congr (h : SameOn ino inode 0 92) (hk : k ≤ 12) : iBlock inode k = iBlock ino k :=
  h.load32 (by omega) (by omega)

theorem fileBlock_congr {blockAt : Nat → Mem} (h : ∀ k ≤ 12, iBlock inode k = iBlock ino k) :
    fileBlock blockAt inode = fileBlock blockAt ino := by
  funext blk
  rw [fileBlock, fileBlock, h 12 (Nat.le_refl 12)]
  by_cases hblk : blk < 12
  · rw [if_pos hblk, if_pos hblk, h blk (by omega)]
  · rw [if_neg hblk, if_neg hblk]

theorem fileBlock_direct {blockAt : Nat → Mem} (hb : b < 12) :
    fileBlock blockAt ino b = iBlock ino b := by
  rw [fileBlock, if_pos hb]

/-- Where the indirect block is the same, the file has the same blocks. -/
theorem fileBlock_same {blockAt blockAt' : Nat → Mem}
    (h : 12 < count → iBlock ino 12 ≠ 0 →
      SameOn (blockAt (iBlock ino 12)) (blockAt' (iBlock ino 12)) 0 limit)
    (hcount : count ≤ 12 + limit / 4) (hb : b < count) :
    fileBlock blockAt' ino b = fileBlock blockAt ino b := by
  rw [fileBlock, fileBlock]
  by_cases hdirect : b < 12
  · rw [if_pos hdirect, if_pos hdirect]
  · rw [if_neg hdirect, if_neg hdirect]
    by_cases hne : iBlock ino 12 = 0
    · rw [if_pos hne, if_pos hne]
    · rw [if_neg hne, if_neg hne]
      exact (h (by omega) hne).load32 (Nat.zero_le _) (by omega)

/-- A file whose indirect block is in reach has the blocks that the kernel sees. -/
theorem fileBlock_in_reach (h : 12 < count → iBlock ino 12 ≠ 0 → InReach fs (iBlock ino 12))
    (disk : Disk) (hcount : count ≤ 12 + fs.gBlockSize / 4) (hb : b < count) :
    fileBlock (fsBlock fs disk) ino b = fileBlock (placedBlock fs disk) ino b := by
  refine fileBlock_same (fun hlt hne => ?_) hcount hb
  rw [(h hlt hne).fsBlock_eq]
  exact SameOn.refl _ _ _

section
variable {fs : FileSystem} {disk disk' : Disk}

theorem Alike.refl (fs : FileSystem) (disk : Disk) : Alike fs disk disk := rfl

theorem Alike.symm (h : Alike fs disk disk') : Alike fs disk' disk := Eq.symm h

theorem Alike.trans (h : Alike fs disk₁ disk₂) (h' : Alike fs disk₂ disk₃) :
    Alike fs disk₁ disk₃ := Eq.trans h' h

theorem Alike.fsBlock (h : Alike fs disk disk') (hid : blockId ≤ 0x100000)
    (hsec : 512 * (fs.gBlockSize / 512) = fs.gBlockSize) :
    SameOn (fsBlock fs disk blockId) (KernelCustom.fsBlock fs disk' blockId) 0 fs.gBlockSize := by
  intro x _ hx
  obtain ⟨m, hread, hm⟩ := readFsBlock_brings disk zeroed 0 hid (Nat.le_refl _) hsec
  obtain ⟨m', hread', hm'⟩ := readFsBlock_brings disk' zeroed 0 hid (Nat.le_refl _) hsec
  rw [h, hread] at hread'
  cases hread'
  rw [← hm x hx, ← hm' x hx]

theorem alike_of_fsBlock (hsec : 512 * (fs.gBlockSize / 512) = fs.gBlockSize)
    (h : ∀ blockId, SameOn (fsBlock fs disk blockId) (fsBlock fs disk' blockId) 0 fs.gBlockSize) :
    Alike fs disk disk' := by
  funext blockId m buf capacity
  rw [readFsBlock, readFsBlock]
  split
  · rfl
  dsimp only
  split
  · rfl
  congr 1
  funext x
  rw [diskRead, diskRead]
  split
  · next hx => exact h blockId (x - buf) (Nat.zero_le _) (by omega)
  · rfl

theorem Alike.readInode (h : Alike fs disk disk') : readInode fs disk' = readInode fs disk := by
  funext n outInode
  rw [KernelCustom.readInode, KernelCustom.readInode, h]

end

/-- The drive with other bytes at the place of a block. -/
def replaceBlock (fs : FileSystem) (disk : Disk) (blockId : Nat) (b : Mem) : Disk := fun x =>
  let start := (fs.ext2StartLba + blockId * (fs.gBlockSize / 512)) * 512
  if start ≤ x ∧ x < start + fs.gBlockSize then b (x - start) else disk x

theorem placedBlock_replaced (fs : FileSystem) (disk : Disk) (blockId : Nat) (b : Mem) :
    SameOn b (placedBlock fs (replaceBlock fs disk blockId b) blockId) 0 fs.gBlockSize := by
  intro k _ hk
  dsimp only [placedBlock, replaceBlock]
  rw [if_pos (by omega), Nat.add_sub_cancel_left]

section
variable {fs : FileSystem}
  (hbs : fs.gBlockSize = 1024 ∨ fs.gBlockSize = 2048 ∨ fs.gBlockSize = 4096)
include hbs

theorem placedBlock_replaced_other (disk : Disk) (hne : other ≠ blockId) (b : Mem) :
    SameOn (placedBlock fs disk other)
      (placedBlock fs (replaceBlock fs disk blockId b) other) 0 fs.gBlockSize := by
  intro k _ hk
  dsimp only [placedBlock, replaceBlock]
  refine if_neg fun hin => hne ?_
  rcases hbs with h | h | h
  all_goals
    rw [h] at hk hin
    omega

/-- Behind the reach of the commands the drive can hold anything. No block that is read overlaps
one that is out of reach: both begin at a multiple of the block size behind the partition's start,
modulo 2 ^ 28 sectors. -/
theorem alike_replaced (disk : Disk) (hfar : ¬ InReach fs blockId) (b : Mem) :
    Alike fs disk (replaceBlock fs disk blockId b) := by
  refine alike_of_fsBlock (by omega) fun other k _ hk => ?_
  rw [InReach] at hfar
  rw [fsBlock_eq, fsBlock_eq]
  dsimp only [replaceBlock]
  refine if_neg fun hin => ?_
  rcases hbs with h | h | h
  all_goals
    rw [h] at hk hin hfar
    omega

end

/-- The drive whose indirect block of the file names one block, the first behind the direct ones. -/
def namingDisk (fs : FileSystem) (disk : Disk) (ino : Mem) (blockId : Nat) : Disk :=
  replaceBlock fs disk (iBlock ino 12) (store32 zeroed 0 blockId)

theorem namingDisk_block (fs : FileSystem) (disk : Disk) (hne : iBlock ino 12 ≠ 0)
    (hid : blockId < 4294967296) (hb : ¬ b < 12) (hlt : b < 12 + fs.gBlockSize / 4) :
    fileBlock (placedBlock fs (namingDisk fs disk ino blockId)) ino b =
      if b = 12 then blockId else 0 := by
  rw [fileBlock, if_neg hb, if_neg hne, namingDisk,
    (placedBlock_replaced fs disk _ _).load32 (Nat.zero_le _) (by omega)]
  split
  · next heq =>
    rw [heq]
    exact load32_store32_self zeroed hid
  · exact load32_store32_of_ne zeroed blockId (by omega)

end KernelCustom
