import KernelCustom.KernelShell
import KernelCustom.PathLookup

namespace KernelCustom
open Word32 ByteStore CString BlockTiling EarlyExit
set_option autoImplicit true

/-! A shell over a tree of files, without a drive, a heap or buffers. -/

/-- What an inode number stands for; of a file, its size and what of it can be shown. -/
inductive Node where
  | directory
  | file (size : Nat) (contents : List UInt8)
  | other
  deriving DecidableEq

structure FileView where
  entries : Nat → List DirEntry
  node : Nat → Node

def FileView.find (v : FileView) (dir : Nat) (name : Text) : Nat := inodeNamed (v.entries dir) name

def FileView.resolve (v : FileView) (path : Text) : Nat :=
  match resolvePathBy (treeFind v.entries) () path with
  | .ok r => r.2
  | .error _ => 0

def FileView.listing (v : FileView) (dir : Nat) : List UInt8 :=
  ((v.entries dir).filter DirEntry.live).flatMap lsLine

/-- The current directory, the names that lead to it from the root, and the screen. -/
structure TreeShell where
  dir : Nat
  names : List Text
  screen : List UInt8

/-- The names behind a step to a directory of that name. -/
def walked (names : List Text) (name : Text) : List Text :=
  if name.chars = dot.chars then names
  else if name.chars = dotDot.chars then names.dropLast
  else names ++ [name]

def TreeShell.print (s : TreeShell) (text : List UInt8) : TreeShell :=
  { s with screen := s.screen ++ text }

def TreeShell.cd (v : FileView) (s : TreeShell) (path : Text) : TreeShell :=
  if path.chars = [] then s
  else if v.find s.dir path = 0 then s.print (ascii "cd: No such directory.\n")
  else if v.node (v.find s.dir path) = .directory then
    { s with dir := v.find s.dir path, names := walked s.names path }
  else s.print (ascii "cd: Not a directory.\n")

def TreeShell.cat (v : FileView) (s : TreeShell) (filename : Text) : TreeShell :=
  if filename.chars = [] then s.print (ascii "cat: Missing filename.\n")
  else if v.find s.dir filename = 0 then s.print (ascii "cat: File not found.\n")
  else
    match v.node (v.find s.dir filename) with
    | .directory => s.print (ascii "cat: Cannot cat a directory.\n")
    | .file size contents => if size = 0 then s else s.print (contents ++ ascii "\n")
    | .other => s.print (ascii "cat: Not a regular file.\n")

def TreeShell.lsPath (v : FileView) (s : TreeShell) (path : Text) : TreeShell :=
  if v.resolve path = 0 then s.print (ascii "ls: No such file or directory\n")
  else if v.node (v.resolve path) = .directory then s.print (v.listing (v.resolve path))
  else s.print (ascii "ls: " ++ path.chars ++ ascii ": Not a directory\n")

/-- A line that runs no program. -/
def Command.views : Command → Bool
  | .testRing3 => false
  | .program _ => false
  | _ => true

/-- What a line does. A plain `ls` shows the root, wherever the shell is. -/
def TreeShell.command (v : FileView) (s : TreeShell) : Command → TreeShell
  | .help => s.print (helpText.flatMap ascii)
  | .missingFilename => s.print (ascii "cat: Missing filename.\n")
  | .nothing => s
  | .cd path => s.cd v path
  | .cat filename => s.cat v filename
  | .ls => s.print (v.listing 2)
  | .lsPath path => s.lsPath v path
  | .clear => { s with screen := [] }
  | .unknown cmd => s.print (ascii "unknown command: " ++ cmd.chars ++ ascii "\n")
  -- what programs do is not followed
  | .testRing3 => s
  | .program _ => s

def TreeShell.handleCommand (v : FileView) (s : TreeShell) (cmd : Text) : TreeShell :=
  s.command v (parseCommand cmd)

/-- The condition on a line: it runs no program, and the path of the directory that it leads to has
at most 127 bytes. -/
def TreeShell.Fits (v : FileView) (s : TreeShell) (cmd : Text) : Prop :=
  (parseCommand cmd).views = true ∧ (pathOf (s.handleCommand v cmd).names).length ≤ 127

/-! The tree on a drive. -/

/-- What `ext2_cat` is to show of a file: its blocks as far as the indirect block reaches, without
the holes. -/
def shownText (fs : FileSystem) (disk : Disk) (ino : Mem) : List UInt8 :=
  (List.range (12 + fs.gBlockSize / 4)).flatMap
    (printed (placedBlock fs disk) fs.gBlockSize (fileBlock (placedBlock fs disk) ino) (iSize ino))

/-- The block ids of a file are those of blocks in reach. -/
structure Readable (fs : FileSystem) (disk : Disk) (ino : Mem) : Prop where
  blocks : ∀ b < 12 + fs.gBlockSize / 4, fileBlock (placedBlock fs disk) ino b ≤ 0x100000
  indirect : iBlock ino 12 ≤ 0x100000
  reach : BlocksInReach fs disk ino (12 + fs.gBlockSize / 4)

/-- A tree of directories in reach with files that can be read. The records of its inodes fit the
structs of the kernel. -/
structure FileTree (fs : FileSystem) (disk : Disk) extends DirectoryTree fs disk where
  inode_fit : fs.gInodeSize ≤ 128
  reach : toDirectoryTree.InReach
  files : ∀ d, dirs d → ∀ e ∈ entries d, e.live = true → ∀ ino,
    readInode fs disk e.inode zeroed = .ok ino → isRegular ino = true → Readable fs disk ino

def driveNode (fs : FileSystem) (disk : Disk) (n : Nat) : Node :=
  match readInode fs disk n zeroed with
  | .error _ => .other
  | .ok ino =>
    if isDirectory ino then .directory
    else if isRegular ino then .file (iSize ino) (shownText fs disk ino)
    else .other

/-- Where no block has an id, nothing is printed. -/
theorem printed_holes {blockAt : Nat → Mem} (hz : ∀ b, m ≤ b → ids b = 0) (n : Nat) :
    (List.range (m + n)).flatMap (printed blockAt gBlockSize ids size) =
      (List.range m).flatMap (printed blockAt gBlockSize ids size) := by
  have hrest :
      ((List.range n).map (m + ·)).flatMap (printed blockAt gBlockSize ids size) = [] := by
    refine List.flatMap_eq_nil_iff.2 fun b hb => ?_
    obtain ⟨i, -, rfl⟩ := List.mem_map.1 hb
    rw [printed, if_pos (hz _ (Nat.le_add_right m i))]
  rw [List.range_add, List.flatMap_append, hrest, List.append_nil]

/-- `ext2_cat` comes to the end of every file that can be read, also of one with holes or with more
blocks than the ids reach. -/
theorem catBlocks_prints (hsec : 512 * (fs.gBlockSize / 512) = fs.gBlockSize)
    (hmax : fs.gBlockSize ≤ 4096) (hr : Readable fs disk ino) {st : Cat}
    (hst : st.sizeRemaining = iSize ino) :
    ∃ st', catBlocks fs disk ino st = .ok st' ∧
      st'.out.vga = st.out.vga ++ shownText fs disk ino := by
  let ids b := if b < 12 + fs.gBlockSize / 4 then fileBlock (fsBlock fs disk) ino b else 0
  have hplaced : ∀ b < 12 + fs.gBlockSize / 4,
      fileBlock (fsBlock fs disk) ino b = fileBlock (placedBlock fs disk) ino b :=
    fun b hb => fileBlock_in_reach hr.reach.indirect disk (Nat.le_refl _) hb
  have hids : ∀ b, fs.gBlockSize * b < iSize ino → ids b ≤ 0x100000 := by
    intro b _
    dsimp only [ids]
    split
    · next hb =>
      rw [hplaced b hb]
      exact hr.blocks b hb
    · exact Nat.zero_le _
  have hshown : shownText fs disk ino = (List.range (12 + fs.gBlockSize / 4)).flatMap
      (printed (fsBlock fs disk) fs.gBlockSize ids (iSize ino)) := by
    refine List.flatMap_congr fun b hb => ?_
    have hlt := List.mem_range.1 hb
    have hid : ids b = fileBlock (placedBlock fs disk) ino b := (if_pos hlt).trans (hplaced b hlt)
    rw [printed, printed, hid]
    split
    · rfl
    · next hne => rw [(hr.reach.blocks b hlt hne).fsBlock_eq]
  have hstart : st.Shows fs disk ids (iSize ino) st.out.vga 0 :=
    ⟨by rw [Nat.mul_zero, Nat.sub_zero, hst], (List.append_nil _).symm⟩
  have hdirects : ∀ b, b < 12 → iBlock ino b = ids b := by
    intro b hb
    have hid : ids b = fileBlock (fsBlock fs disk) ino b := if_pos (by omega)
    rw [hid, fileBlock_direct hb]
  obtain ⟨st₁, blockIndex, hdirect, h₁, hindex⟩ :=
    catDirect_shows hsec hmax hids hdirects hstart (Nat.zero_add 12)
  rw [catBlocks, hdirect, hshown]
  simp only [bind, Except.bind]
  by_cases hgo : 0 < st₁.sizeRemaining
  · by_cases hne : iBlock ino 12 = 0
    · -- the rest of the file is one hole
      rw [if_neg fun hc => hc.2.2 hne, printed_holes]
      · exact ⟨st₁, rfl, h₁.vga⟩
      · intro b hb
        have hhole : fileBlock (fsBlock fs disk) ino b = 0 := by
          rw [fileBlock, if_neg (by omega), if_pos hne]
        dsimp only [ids]
        rw [hhole, ite_self]
    · obtain ⟨entries, hread, -⟩ := readFsBlock_brings disk zeroed 0 hr.indirect hmax hsec
      rw [if_pos ⟨hgo, hindex hgo, hne⟩, hread]
      obtain ⟨st', hcat, h'⟩ := catIndirect_shows hsec hmax hids (i := 0) (fun i hi => by
        have hid : ids (12 + i) = fileBlock (fsBlock fs disk) ino (12 + i) := if_pos (by omega)
        rw [hid]
        exact indirect_entries hsec hne hread i hi) h₁ (Nat.zero_add _)
      exact ⟨st', hcat, h'.vga⟩
  · rw [if_neg fun hc => hgo hc.1]
    exact ⟨st₁, rfl, (h₁.past (by omega) _).vga⟩

end KernelCustom
