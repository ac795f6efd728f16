import KernelCustom.Directory

namespace KernelCustom
open Word32 ByteStore CString
set_option autoImplicit true

def slash : UInt8 := 0x2F

/-- The variables of `resolve_path`: the memory with the heap, the static buffer of
`find_inode_in_dir`, `current_inode`, and the directories that have been looked in. -/
structure Walk where
  heap : MemoryState
  blockBuf : Mem
  currentInode : Nat
  searched : List Nat

/-- Cuts a name off the front of a path. `name` has room for 31 bytes, and one slash behind it is
passed over. -/
def cutName (path : List UInt8) : List UInt8 × List UInt8 :=
  let name := (path.takeWhile (· ≠ slash)).take 31
  let path := path.drop name.length
  (name, if path.head? = some slash then path.tail else path)

section
variable (L : Layout) (disk : Disk) (fs : FileSystem)

/-- The loop of `resolve_path`; the structs of its calls of `find_inode_in_dir` hold `stack 0`,
`stack 1` and so on. A round takes at least one byte of the path, so more rounds than bytes would
mean that it never ends. -/
def resolveNames : Nat → (Nat → Mem) → List UInt8 → Walk → Except Stuck Walk
  | 0, _, _, _ => .error .hang
  | fuel + 1, stack, path, w =>
    if path = [] then .ok w
    else do
      let (name, path) := cutName path
      let r ← findInodeInDir L disk w.heap w.blockBuf (stack 0) fs w.currentInode (.ofBytes name)
      let w := ⟨r.heap, r.blockBuf, r.result, w.searched ++ [w.currentInode]⟩
      if r.result = 0 then .ok w else resolveNames fuel (fun k => stack (k + 1)) path w

/-- `resolve_path` of a path that is not `NULL`. -/
def resolvePath (heap : MemoryState) (blockBuf : Mem) (stack : Nat → Mem) (path : Text) :
    Except Stuck Walk :=
  if path.chars = [] then .ok ⟨heap, blockBuf, 0, []⟩
  else if strcmp path ⟨[slash], by decide⟩ = 0 then .ok ⟨heap, blockBuf, 2, []⟩
  else
    let path := if path.chars.head? = some slash then path.chars.tail else path.chars
    resolveNames L disk fs (path.length + 1) stack path ⟨heap, blockBuf, 2, []⟩

end

/-- Paths other than `/` go through the loop. -/
theorem resolvePath_loop (hroot : path.chars ≠ [slash]) (stack : Nat → Mem) :
    resolvePath L disk fs heap blockBuf stack path =
      if path.chars = [] then .ok ⟨heap, blockBuf, 0, []⟩
      else
        let path := if path.chars.head? = some slash then path.chars.tail else path.chars
        resolveNames L disk fs (path.length + 1) stack path ⟨heap, blockBuf, 2, []⟩ := by
  have hcmp : ¬ strcmp path ⟨[slash], by decide⟩ = 0 := by
    rw [strcmp_eq_zero_iff]
    exact hroot
  rw [resolvePath, if_neg hcmp]

/-- The current directory: the array `g_cwd_path`, `g_cwd_node.internal_id`, and the indices at
which the array was written. The array has 128 bytes. Behind it lie other variables of the kernel,
`g_cwd_inode` among them, so the state is the program's as long as no index is above 127. -/
structure Cwd where
  gCwdPath : Int → UInt8
  internalId : Nat
  writes : List Int

def Cwd.store (cwd : Cwd) (i : Int) (c : UInt8) : Cwd :=
  { cwd with gCwdPath := Function.update cwd.gCwdPath i c, writes := cwd.writes ++ [i] }

/-- The copy loop of `ext2_cd`, with the NUL behind it. -/
def Cwd.write (cwd : Cwd) (i : Int) : List UInt8 → Cwd
  | [] => cwd.store i 0
  | c :: path => (cwd.store i c).write (i + 1) path

/-- `last_slash` after that many rounds. -/
def lastSlash (path : Int → UInt8) : Nat → Int
  | 0 => -1
  | i + 1 => if path i = slash then i else lastSlash path i

/-- The path of the parent directory. -/
def Cwd.ascend (cwd : Cwd) : Cwd :=
  let len := arrayLength cwd.gCwdPath
  let last := lastSlash cwd.gCwdPath len
  if 0 < last then cwd.store last 0
  else if last = 0 ∧ 1 < len then cwd.store 1 0
  else cwd

/-- The path of a directory in the current one. -/
def Cwd.descend (cwd : Cwd) (path : Text) : Cwd :=
  let len := arrayLength cwd.gCwdPath
  if len = 1 ∧ cwd.gCwdPath 0 = slash then cwd.write 1 path.chars
  else (cwd.store len slash).write (len + 1) path.chars

def dot : Text := ⟨[0x2E], by decide⟩
def dotDot : Text := ⟨[0x2E, 0x2E], by decide⟩

/-- How `ext2_cd` edits the path. -/
def Cwd.edit (cwd : Cwd) (path : Text) : Cwd :=
  if strcmp path dot = 0 then cwd
  else if strcmp path dotDot = 0 then cwd.ascend
  else cwd.descend path

/-- What a call of `ext2_cd` leaves. -/
structure CdRun where
  heap : MemoryState
  dirBlockBuf : Mem
  cwd : Cwd
  out : Console

/-- `ext2_cd` of a path that is not `NULL`; `lookupInode` and `inode` are what the local structs of
`ext2_lookup` and of `ext2_cd` hold. -/
def ext2Cd (L : Layout) (disk : Disk) (heap : MemoryState) (dirBlockBuf lookupInode : Mem)
    (fs : FileSystem) (cwd : Cwd) (path : Text) (inode : Mem) (out : Console) :
    Except Stuck CdRun :=
  if path.chars = [] then .ok ⟨heap, dirBlockBuf, cwd, out⟩
  else do
    let out := serialPuts (ascii "[cd] path=" ++ path.chars ++ ascii "\n") out
    let r ← ext2Lookup L disk heap dirBlockBuf lookupInode fs cwd.internalId path
    if r.result = 0 then
      .ok ⟨r.heap, r.blockBuf, cwd, vgaPuts (ascii "cd: No such directory.\n") out⟩
    else do
      let inode ← readLocalInode fs disk r.result inode
      if isDirectory inode then
        let cwd := { cwd.edit path with internalId := r.result }
        let line := ascii "[cd] cwd_path=" ++ arrayText cwd.gCwdPath ++ ascii "\n"
        .ok ⟨r.heap, r.blockBuf, cwd, serialPuts line out⟩
      else .ok ⟨r.heap, r.blockBuf, cwd, vgaPuts (ascii "cd: Not a directory.\n") out⟩

end KernelCustom
