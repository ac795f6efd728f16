import KernelCustom.FileSystem
import KernelCustom.Heap
import KernelCustom.CString

namespace KernelCustom
open Word32 ByteStore CString
set_option autoImplicit true

/-! The fields of `struct ext2_inode` and of `struct ext2_dir_entry_2` that the scanners read. -/

def iSize (inode : Mem) : Nat := load32 inode 4
def iBlock (inode : Mem) (k : Nat) : Nat := load32 inode (40 + 4 * k)
def entryInode (buf : Mem) (entry : Nat) : Nat := load32 buf entry
def entryRecLen (buf : Mem) (entry : Nat) : Nat := load16 buf (entry + 4)
def entryNameLen (buf : Mem) (entry : Nat) : Nat := (buf (entry + 6)).toNat
def entryFileType (buf : Mem) (entry : Nat) : UInt8 := buf (entry + 7)
def entryName (buf : Mem) (entry : Nat) : Nat → UInt8 := fun i => buf (entry + 8 + i)

/-- What a scanner does with a used entry: its new result, and whether it leaves the loops. -/
abbrev Visit (σ : Type) := Mem → Nat → σ → σ × Bool

/-- The loop over the entries of a block. A round moves the offset on by `rec_len`, so more rounds
than the block has bytes would mean that it never ends: no result. -/
def scanEntries (gBlockSize : Nat) (visit : Visit σ) (buf : Mem) :
    Nat → Nat → σ → Option (σ × Bool)
  | 0, _, _ => none
  | fuel + 1, offset, result =>
    if offset < gBlockSize then
      if entryRecLen buf offset = 0 ∨ gBlockSize < entryRecLen buf offset then some (result, false)
      else
        let r :=
          if entryInode buf offset ≠ 0 ∧ 0 < entryNameLen buf offset then visit buf offset result
          else (result, false)
        if r.2 then some r
        else scanEntries gBlockSize visit buf fuel (wrap (offset + entryRecLen buf offset)) r.1
    else some (result, false)

/-- The variables of a scanner: the memory with the heap, its static block buffer, the pointer
`indirect_buf` and the result so far. -/
structure Scan (σ : Type) where
  heap : MemoryState
  blockBuf : Mem
  indirectBuf : Nat
  result : σ

section
variable (L : Layout) (fs : FileSystem) (disk : Disk)

/-- The indirect block is read once, into a buffer from the heap. The pointer stays `NULL` when
there is no room for it. -/
def openIndirect (inode : Mem) (st : Scan σ) : Except Stuck (Scan σ) :=
  if st.indirectBuf ≠ 0 then .ok st
  else
    match kmalloc L st.heap fs.gBlockSize with
    | none => .error .hang
    | some (p, heap) =>
      if p = 0 then .ok { st with heap := heap }
      else
        (readFsBlock fs disk (iBlock inode 12) heap.mem p fs.gBlockSize).map fun m =>
          { st with heap := { heap with mem := m }, indirectBuf := p }

/-- The `block_id` of a round of the outer loop; `none` where the source has `break`. -/
def blockIdOf (inode : Mem) (blk : Nat) (st : Scan σ) : Except Stuck (Scan σ × Option Nat) :=
  if blk < 12 then .ok (st, some (iBlock inode blk))
  else if iBlock inode 12 = 0 then .ok (st, none)
  else do
    let st ← openIndirect L fs disk inode st
    if st.indirectBuf = 0 then .ok (st, none)
    else
      let idx := blk - 12
      if fs.gBlockSize / 4 ≤ idx then .ok (st, none)
      else .ok (st, some (load32 st.heap.mem (st.indirectBuf + 4 * idx)))

/-- Reads a block of the directory into the static buffer and goes through its entries. -/
def scanBlock (visit : Visit σ) (blockId : Nat) (st : Scan σ) : Except Stuck (Scan σ × Bool) := do
  let buf ← readFsBlock fs disk blockId st.blockBuf 0 4096
  match scanEntries fs.gBlockSize visit buf (fs.gBlockSize + 1) 0 st.result with
  | none => .error .hang
  | some r => .ok ({ st with blockBuf := buf, result := r.1 }, r.2)

/-- The loop over the blocks of the directory, with the number of blocks that are left. -/
def scanBlocks (visit : Visit σ) (inode : Mem) : Nat → Nat → Scan σ → Except Stuck (Scan σ)
  | 0, _, st => .ok st
  | left + 1, blk, st => do
    let (st, blockId) ← blockIdOf L fs disk inode blk st
    match blockId with
    | none => .ok st
    | some 0 => scanBlocks visit inode left (blk + 1) st
    | some blockId => do
      let (st, stop) ← scanBlock fs disk visit blockId st
      if stop then .ok st else scanBlocks visit inode left (blk + 1) st

/-- The body that the scanners share, from `block_count` on. -/
def scanDirectory (visit : Visit σ) (inode : Mem) (st : Scan σ) : Except Stuck (Scan σ) :=
  if fs.gBlockSize = 0 then .error .divZero
  else
    let blockCount := wrap (iSize inode + fs.gBlockSize - 1) / fs.gBlockSize
    if blockCount = 0 then .ok st
    else
      (scanBlocks L fs disk visit inode blockCount 0 st).map fun st =>
        if st.indirectBuf ≠ 0 then { st with heap := kfree st.heap st.indirectBuf } else st

end

/-- The test of `find_inode_in_dir`: a prefix compare, and the lengths. -/
def visitFind (name : Text) : Visit Nat := fun buf entry result =>
  if strncmp (entryName buf entry) name.char (entryNameLen buf entry) = 0 ∧
      entryNameLen buf entry = strlen name then (entryInode buf entry, true)
  else (result, false)

/-- The copy of a name into `name_buf`, closed with a NUL. -/
def nameBuf (buf : Mem) (entry len : Nat) : Text := Text.ofBytes (bytesAt buf (entry + 8) len)

/-- The test of `ext2_lookup`: a copy of the name, and `strcmp`. -/
def visitLookup (name : Text) : Visit Nat := fun buf entry result =>
  if strcmp (nameBuf buf entry (entryNameLen buf entry)) name = 0 then
    (entryInode buf entry, true)
  else (result, false)

/-- What has gone to the screen and to the serial line. -/
structure Console where
  vga : List UInt8
  serial : List UInt8

def ascii (s : String) : List UInt8 := s.toList.map fun c => UInt8.ofNat c.toNat

/-- A string constant. -/
def word (s : String) : Text := .ofBytes (ascii s)

/-- The bytes that `print_hex` sends to the serial line. -/
def hexText (val : Nat) : List UInt8 :=
  ascii "0x" ++ (List.range 8).map fun i =>
    (ascii "0123456789ABCDEF").getD (val / 16 ^ (7 - i) % 16) 0

def vgaPuts (s : List UInt8) (c : Console) : Console := { c with vga := c.vga ++ s }
def serialPuts (s : List UInt8) (c : Console) : Console := { c with serial := c.serial ++ s }

/-- The lines that `ext2_ls` prints for an entry. -/
def visitLs : Visit Console := fun buf entry out =>
  let len := if 255 < entryNameLen buf entry then 255 else entryNameLen buf entry
  let name := (nameBuf buf entry len).chars
  let out := vgaPuts (ascii (if entryFileType buf entry = 2 then "<DIR> " else "      ")) out
  let out := vgaPuts (ascii "\n") (vgaPuts name out)
  let out := serialPuts (ascii "[ls] entry=") out
  (serialPuts (ascii "\n") (serialPuts name out), false)

section
variable (L : Layout) (disk : Disk) (heap : MemoryState) (blockBuf inode : Mem)

/-- `find_inode_in_dir`; `blockBuf` and `inode` are what its buffer and its local struct hold when
it is called. -/
def findInodeInDir (fs : FileSystem) (parentInode : Nat) (name : Text) :
    Except Stuck (Scan Nat) := do
  let dirInode ← readLocalInode fs disk parentInode inode
  if isDirectory dirInode then
    scanDirectory L fs disk (visitFind name) dirInode ⟨heap, blockBuf, 0, 0⟩
  else .ok ⟨heap, blockBuf, 0, 0⟩

def ext2Lookup (fs : FileSystem) (dirInodeNum : Nat) (name : Text) :
    Except Stuck (Scan Nat) := do
  let inode ← readLocalInode fs disk dirInodeNum inode
  if isDirectory inode then
    scanDirectory L fs disk (visitLookup name) inode ⟨heap, blockBuf, 0, 0⟩
  else .ok ⟨heap, blockBuf, 0, 0⟩

/-- `ext2_ls`; there is no file system before `fs_gdt` is set. -/
def ext2Ls (fs : Option FileSystem) (dirInodeNum : Nat) (out : Console) :
    Except Stuck (Scan Console) :=
  match fs with
  | none =>
    .ok ⟨heap, blockBuf, 0, vgaPuts (ascii "Error: File system GDT not initialized.\n") out⟩
  | some fs => do
    let inode ← readLocalInode fs disk dirInodeNum inode
    if isDirectory inode then scanDirectory L fs disk visitLs inode ⟨heap, blockBuf, 0, out⟩
    else .ok ⟨heap, blockBuf, 0, vgaPuts (ascii "Error: Inode is not a directory.\n") out⟩

end

end KernelCustom
