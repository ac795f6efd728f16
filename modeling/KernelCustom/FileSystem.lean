import KernelCustom.Memory

namespace KernelCustom
open Word32 ByteStore
set_option autoImplicit true

/-- Why a call does not come back: it loops for ever, it has read a block into a buffer that is
too small for it, it has copied an inode over its own frame, it has divided by zero, or it has
called `panic`. -/
inductive Stuck where
  | hang
  | overrun
  | smashed
  | divZero
  | panic
  deriving DecidableEq

/-- The bytes of the drive, by their distance from sector 0. -/
abbrev Disk := Nat → UInt8

/-- A buffer of the kernel image that nothing has written yet. -/
def zeroed : Mem := fun _ => 0

/-- `disk_read` from a drive that answers. The command takes the low 28 bits of the LBA. -/
def diskRead (disk : Disk) (lba : Nat) (m : Mem) (buffer sectorCount : Nat) : Mem := fun x =>
  if buffer ≤ x ∧ x < buffer + 512 * sectorCount then
    disk (lba % 268435456 * 512 + (x - buffer))
  else m x

/-- `probe_ext2_partition`: where the first partition of type 0x83 starts. -/
def probeExt2Partition (disk : Disk) : Nat :=
  let mbr := diskRead disk 0 zeroed 0 1
  if load16 mbr 510 = 0xAA55 then
    match (List.range 4).find? fun i => mbr (446 + 16 * i + 4) = 0x83 with
    | some i => load32 mbr (446 + 16 * i + 8)
    | none => 0
  else 0

/-- The fields of `struct ext2_superblock` that say where an inode is. -/
structure Superblock where
  inodesCount : Nat
  firstDataBlock : Nat
  logBlockSize : Nat
  inodesPerGroup : Nat
  magic : Nat
  revLevel : Nat
  inodeSize : Nat
  deriving DecidableEq

def readSuperblock (m : Mem) : Superblock where
  inodesCount := load32 m 0
  firstDataBlock := load32 m 20
  logBlockSize := load32 m 24
  inodesPerGroup := load32 m 40
  magic := load16 m 56
  revLevel := load32 m 76
  inodeSize := load16 m 88

/-- `fs_gdt[group].bg_inode_table`. -/
def bgInodeTable (gdt : Mem) (group : Nat) : Nat := load32 gdt (32 * group + 8)

/-- The globals of the file system, with the buffers that `g_sb` and `fs_gdt` point to. -/
structure FileSystem where
  ext2StartLba : Nat
  gBlockSize : Nat
  gInodeSize : Nat
  gInodesPerBlock : Nat
  gSb : Superblock
  fsGdt : Mem

/-- `fs_init`. The shift count of an i386 shift is taken modulo 32. -/
def fsInit (ext2StartLba : Nat) (sb : Superblock) : Except Stuck FileSystem :=
  let gBlockSize := wrap (1024 <<< (sb.logBlockSize % 32))
  let gInodeSize := if 1 ≤ sb.revLevel then sb.inodeSize else 128
  if gInodeSize = 0 then .error .divZero
  else .ok
    { ext2StartLba := ext2StartLba
      gBlockSize := gBlockSize
      gInodeSize := gInodeSize
      gInodesPerBlock := gBlockSize / gInodeSize
      gSb := sb
      fsGdt := zeroed }

/-- `read_fs_block`, into a buffer of `capacity` bytes. -/
def readFsBlock (fs : FileSystem) (disk : Disk) (blockId : Nat) (m : Mem)
    (buf capacity : Nat) : Except Stuck Mem :=
  if 0x100000 < blockId then .error .hang
  else
    let sectors := fs.gBlockSize / 512
    let lba := wrap (blockId * sectors)
    if capacity < 512 * sectors then .error .overrun
    else .ok (diskRead disk (wrap (fs.ext2StartLba + lba)) m buf sectors)

/-- `read_inode`. Of `safe_inode_buf` only the block just read is looked at. `outInode` is the
memory from the caller's struct on: the copy loop knows no end of the struct. -/
def readInode (fs : FileSystem) (disk : Disk) (inodeNum : Nat) (outInode : Mem) :
    Except Stuck Mem :=
  if inodeNum = 0 ∨ fs.gSb.inodesCount < inodeNum then .ok outInode
  else
    let localInodeIdx := inodeNum - 1
    let inodeSize := fs.gInodeSize
    if inodeSize = 0 then .error .divZero
    else
      let inodesPerBlock := fs.gBlockSize / inodeSize
      if inodesPerBlock = 0 then .error .hang
      else
        let inodeTableBlock := bgInodeTable fs.fsGdt 0
        let blockNum := wrap (inodeTableBlock + localInodeIdx / inodesPerBlock)
        let offset := wrap (localInodeIdx % inodesPerBlock * inodeSize)
        (readFsBlock fs disk blockNum zeroed 0 4096).map fun safeInodeBuf => fun i =>
          if i < inodeSize then safeInodeBuf (offset + i) else outInode i

/-- `read_inode` into a `struct ext2_inode` on the stack of its caller. The struct has 128 bytes:
the copy of a longer record runs on over the saved registers and the return address. -/
def readLocalInode (fs : FileSystem) (disk : Disk) (inodeNum : Nat) (inode : Mem) :
    Except Stuck Mem := do
  let out ← readInode fs disk inodeNum inode
  if ¬ (inodeNum = 0 ∨ fs.gSb.inodesCount < inodeNum) ∧ 128 < fs.gInodeSize then .error .smashed
  else .ok out

/-- `(i_mode & 0xF000) == 0x4000`. -/
def isDirectory (inode : Mem) : Bool := load16 inode 0 &&& 0xF000 = 0x4000

/-- The part of `kmain` that mounts the drive; `rootInode` is what its local struct holds. `kmain`
does not return, so what a longer record does to its frame is not followed. -/
def mount (disk : Disk) (rootInode : Mem) : Except Stuck FileSystem := do
  let start := probeExt2Partition disk
  let sb := readSuperblock (diskRead disk (wrap (start + 2)) zeroed 0 2)
  if sb.magic = 0xEF53 then
    let fs ← fsInit start sb
    let gdt ← readFsBlock fs disk (wrap (sb.firstDataBlock + 1)) zeroed 0 4096
    let fs := { fs with fsGdt := gdt }
    if bgInodeTable fs.fsGdt 0 = 0 ∨ 0x10000 < bgInodeTable fs.fsGdt 0 then .error .hang
    else
      let root ← readInode fs disk 2 rootInode
      if isDirectory root then .ok fs else .error .panic
  else .error .panic

end KernelCustom
