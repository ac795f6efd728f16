import KernelCustom.TreeShell
import KernelCustom.Runs

namespace KernelCustom
open Word32 ByteStore CString BlockTiling EarlyExit Runs
set_option autoImplicit true

/-- What the scanners show of the directories of a tree as long as the heap keeps its block list:
all entries when there is room for an indirect block. -/
structure Presents (L : Layout) (bs : List Block) (tree : FileTree fs disk)
    (entries : Nat → List DirEntry) : Prop
    extends Seen tree.toDirectoryTree L bs entries where
  outside : ∀ d, ¬ tree.dirs d → entries d = []
  full : ∀ d, tree.dirs d → ∀ b ∈ bs, b.free = true → footprint fs.gBlockSize ≤ b.size →
    entries d = tree.entries d
  list : ∀ d, tree.dirs d → ∀ heap, HeapRep L heap bs → ∀ blockBuf inode out, ∃ st,
    ext2Ls L disk heap blockBuf inode (some fs) d out = .ok st ∧
      st.result.vga = out.vga ++ ((entries d).filter DirEntry.live).flatMap lsLine ∧
      HeapRep L st.heap bs

section
variable {L : Layout} {bs : List Block} {fs : FileSystem} {disk : Disk} {tree : FileTree fs disk}
  {entries : Nat → List DirEntry}

/-- An inode that names lead to: a directory behind the root, or something that can be shown. -/
structure Placed (tree : FileTree fs disk) (entries : Nat → List DirEntry) (n : Nat) (ino : Mem) :
    Prop where
  number : 1 ≤ n ∧ n ≤ fs.gSb.inodesCount
  read : readInode fs disk n zeroed = .ok ino
  directory : isDirectory ino = true → ∃ names, Descends tree.toDirectoryTree entries 2 names n
  file : isRegular ino = true → Readable fs disk ino

theorem FileTree.inode_size (tree : FileTree fs disk) : 128 ≤ fs.gInodeSize := by
  obtain ⟨ino, h⟩ := tree.holds 2 tree.root
  exact h.inode_size

/-- Where `..` leads to. -/
theorem Descends.parent (h : Descends tree.toDirectoryTree entries 2 names d) :
    Descends tree.toDirectoryTree entries 2 names.dropLast (tree.parent d) := by
  rcases List.eq_nil_or_concat' names with rfl | ⟨names, name, rfl⟩
  · cases h
    rw [tree.parent_root]
    exact .nil
  · obtain ⟨e, hdown, he⟩ := h.last
    rw [List.dropLast_concat, he.child.2]
    exact hdown

theorem isRegular_of_directory (h : isDirectory ino = true) : isRegular ino = false := by
  have hmode : load16 ino 0 &&& 0xF000 = 0x4000 := of_decide_eq_true h
  rw [isRegular, hmode]
  rfl

theorem FileTree.placed_dir (tree : FileTree fs disk)
    (h : Descends tree.toDirectoryTree entries 2 names d) :
    ∃ ino, Placed tree entries d ino ∧ isDirectory ino = true := by
  obtain ⟨ino, hd⟩ := tree.holds d (h.dirs tree.root)
  refine ⟨ino, ⟨hd.number, hd.read, fun _ => ⟨names, h⟩, fun hreg => ?_⟩, hd.directory⟩
  rw [isRegular_of_directory hd.directory] at hreg
  cases hreg

/-- A name that a directory has. -/
theorem Presents.found (hp : Presents L bs tree entries)
    (hd : Descends tree.toDirectoryTree entries 2 names d)
    (hn : inodeNamed (entries d) name ≠ 0) :
    ∃ ino, Placed tree entries (inodeNamed (entries d) name) ino ∧ (isDirectory ino = true →
      Descends tree.toDirectoryTree entries 2 (walked names name)
        (inodeNamed (entries d) name)) := by
  have hdir := hd.dirs tree.root
  obtain ⟨e, he, hlive, hname, hinode⟩ := inodeNamed_found hn
  have hmem := hp.sub d hdir e he
  rw [← hinode] at hn ⊢
  by_cases hdot : name.chars = dot.chars
  · have hself := tree.self d hdir e hmem hlive (hname.trans hdot)
    obtain ⟨ino, hplaced, -⟩ := tree.placed_dir hd
    rw [walked, if_pos hdot, hself]
    exact ⟨ino, hplaced, fun _ => hd⟩
  by_cases hup : name.chars = dotDot.chars
  · have hparent := tree.up d hdir e hmem hlive (hname.trans hup)
    obtain ⟨ino, hplaced, -⟩ := tree.placed_dir hd.parent
    rw [walked, if_neg hdot, if_pos hup, hparent]
    exact ⟨ino, hplaced, fun _ => hd.parent⟩
  · obtain ⟨hcount, ino, hread, hchild⟩ :=
      tree.child d hdir e hmem hlive (hname ▸ hdot) (hname ▸ hup)
    obtain ⟨hslash, hlen⟩ := tree.names d hdir e hmem hlive
    have hne : e.name ≠ [] := (of_decide_eq_true hlive).2
    have henters : isDirectory ino = true →
        Descends tree.toDirectoryTree entries 2 (names ++ [name]) e.inode := fun hisdir =>
      hd.concat ⟨hdir, hinode.symm, hn, hchild hisdir, hname ▸ hne, hname ▸ hslash, hname ▸ hlen⟩
    rw [walked, if_neg hdot, if_neg hup]
    refine ⟨ino, ⟨⟨by omega, hcount⟩, hread, fun hisdir => ⟨_, henters hisdir⟩, fun hreg => ?_⟩,
      henters⟩
    exact tree.files d hdir e hmem hlive ino hread hreg

/-- What `read_inode` brings for such an inode, whatever the struct has held. -/
theorem Placed.read_any (h : Placed tree entries n ino) (inode : Mem) :
    ∃ ino', readLocalInode fs disk n inode = .ok ino' ∧ isDirectory ino' = isDirectory ino ∧
      isRegular ino' = isRegular ino ∧ iSize ino' = iSize ino ∧
      ∀ k ≤ 12, iBlock ino' k = iBlock ino k := by
  have hi := tree.inode_size
  obtain ⟨ino', hread, hsame⟩ := readInode_congr h.number h.read inode
  have hmode : load16 ino' 0 = load16 ino 0 := hsame.load16 (by omega) (by omega)
  rw [← readLocalInode_of_fits tree.inode_fit] at hread
  refine ⟨ino', hread, ?_, ?_, hsame.load32 (by omega) (by omega),
    fun k hk => hsame.load32 (by omega) (by omega)⟩
  · rw [isDirectory, isDirectory, hmode]
  · rw [isRegular, isRegular, hmode]

theorem Placed.node_eq (h : Placed tree entries n ino) : driveNode fs disk n =
    if isDirectory ino then .directory
    else if isRegular ino then .file (iSize ino) (shownText fs disk ino)
    else .other := by
  rw [driveNode, h.read]

/-- The view of the drive that the shell has. -/
def driveView (fs : FileSystem) (disk : Disk) (entries : Nat → List DirEntry) : FileView :=
  ⟨entries, driveNode fs disk⟩

/-- The kernel shell does what the shell over the tree does. -/
structure KernelShell.Refines (L : Layout) (bs : List Block) (tree : FileTree fs disk)
    (entries : Nat → List DirEntry) (s : KernelShell) (a : TreeShell) : Prop where
  heap : HeapRep L s.heap bs
  inode : s.gCwdInode = 2
  dir : s.cwd.internalId = a.dir
  down : Descends tree.toDirectoryTree entries 2 a.names a.dir
  path : Spells s.cwd.gCwdPath (pathOf a.names)
  short : (pathOf a.names).length ≤ 127
  screen : s.out.vga = a.screen

theorem Cwd.ascend_walked {cwd : Cwd} (hplain : ∀ x ∈ names, PlainName x)
    (h : Spells cwd.gCwdPath (pathOf names)) :
    Spells cwd.ascend.gCwdPath (pathOf names.dropLast) := by
  rcases List.eq_nil_or_concat' names with rfl | ⟨names, name, rfl⟩
  · rw [Cwd.ascend_root h]
    exact h
  · rw [pathOf_concat] at h
    rw [List.dropLast_concat]
    exact Cwd.ascend_spells (hplain name (List.mem_append_right _ List.mem_cons_self)) h

/-- The path on the screen follows the names. -/
theorem Cwd.edit_walked {cwd : Cwd} (hplain : ∀ x ∈ names, PlainName x)
    (h : Spells cwd.gCwdPath (pathOf names)) (hlen : (pathOf names).length ≤ 127)
    (hplain' : ∀ x ∈ walked names name, PlainName x) :
    Spells (cwd.edit name).gCwdPath (pathOf (walked names name)) := by
  by_cases hdot : name.chars = dot.chars
  · rw [Cwd.edit_dot cwd hdot, walked, if_pos hdot]
    exact h
  by_cases hup : name.chars = dotDot.chars
  · rw [Cwd.edit_dotDot cwd hup, walked, if_neg hdot, if_pos hup]
    exact Cwd.ascend_walked hplain h
  · rw [walked, if_neg hdot, if_neg hup] at hplain' ⊢
    rw [Cwd.edit_name cwd hdot hup]
    exact Cwd.descend_spells h (fun x hx => (hplain x hx).1) hlen
      (hplain' name (List.mem_append_right _ List.mem_cons_self))

variable {s : KernelShell} {a : TreeShell} {structs : Structs}

theorem KernelShell.Refines.print (h : s.Refines L bs tree entries a) (text : List UInt8) :
    (s.print text).Refines L bs tree entries (a.print text) :=
  ⟨h.heap, h.inode, h.dir, h.down, h.path, h.short, congrArg (· ++ text) h.screen⟩

theorem KernelShell.Refines.cd (h : s.Refines L bs tree entries a)
    (hp : Presents L bs tree entries) (path : Text)
    (hshort : (pathOf (a.cd (driveView fs disk entries) path).names).length ≤ 127) :
    ∃ s', s.ext2Cd L disk fs structs path = .ok s' ∧
      s'.Refines L bs tree entries (a.cd (driveView fs disk entries) path) := by
  rw [TreeShell.cd] at hshort ⊢
  by_cases hnil : path.chars = []
  · simp only [ext2Cd, KernelCustom.ext2Cd, if_pos hnil]
    refine ⟨_, rfl, ?_⟩
    exact ⟨h.heap, h.inode, h.dir, h.down, h.path, h.short, h.screen⟩
  rw [if_neg hnil] at hshort ⊢
  obtain ⟨st, hlook, hres, hheap⟩ :=
    hp.lookup a.dir (h.down.dirs tree.root) s.heap h.heap s.lookupBuf structs.lookup path
  rw [← h.dir] at hlook
  have hfind : (driveView fs disk entries).find a.dir path = st.result := hres.symm
  rw [hfind] at hshort ⊢
  simp only [ext2Cd, KernelCustom.ext2Cd, if_neg hnil, hlook, bind, Except.bind]
  by_cases hzero : st.result = 0
  · simp only [if_pos hzero]
    refine ⟨_, rfl, ?_⟩
    exact ⟨hheap, h.inode, h.dir, h.down, h.path, h.short,
      congrArg (· ++ ascii "cd: No such directory.\n") h.screen⟩
  rw [if_neg hzero] at hshort ⊢
  obtain ⟨ino, hplaced, hdown⟩ := hp.found h.down (hres ▸ hzero)
  rw [← hres] at hplaced hdown
  obtain ⟨ino', hread, hmode, -⟩ := hplaced.read_any structs.caller
  have hnode : (driveView fs disk entries).node st.result = .directory ↔
      isDirectory ino = true := by
    change driveNode fs disk st.result = _ ↔ _
    rw [hplaced.node_eq]
    cases isDirectory ino with
    | true => exact iff_of_true rfl rfl
    | false => cases isRegular ino <;> simp
  simp only [if_neg hzero, hread, hmode, hnode] at hshort ⊢
  by_cases hdir : isDirectory ino = true
  · rw [if_pos hdir] at hshort ⊢
    rw [if_pos hdir]
    have hnames := hdown hdir
    have hpath := Cwd.edit_walked h.down.plain h.path h.short hnames.plain
    refine ⟨_, rfl, ?_⟩
    exact ⟨hheap, h.inode, rfl, hnames, hpath, hshort, h.screen⟩
  · rw [if_neg hdir, if_neg hdir]
    refine ⟨_, rfl, ?_⟩
    exact ⟨hheap, h.inode, h.dir, h.down, h.path, h.short,
      congrArg (· ++ ascii "cd: Not a directory.\n") h.screen⟩

theorem shownText_congr (hsize : iSize ino' = iSize ino)
    (hblocks : ∀ k ≤ 12, iBlock ino' k = iBlock ino k) :
    shownText fs disk ino' = shownText fs disk ino := by
  rw [shownText, shownText, hsize, fileBlock_congr hblocks]

theorem Readable.congr (h : Readable fs disk ino)
    (hblocks : ∀ k ≤ 12, iBlock ino' k = iBlock ino k) : Readable fs disk ino' := by
  have hind := hblocks 12 (Nat.le_refl 12)
  refine ⟨?_, ?_, ?_, ?_⟩
  · rw [fileBlock_congr hblocks]
    exact h.blocks
  · rw [hind]
    exact h.indirect
  · rw [fileBlock_congr hblocks]
    exact h.reach.blocks
  · rw [hind]
    exact h.reach.indirect

theorem FileTree.block_size (tree : FileTree fs disk) :
    512 * (fs.gBlockSize / 512) = fs.gBlockSize ∧ fs.gBlockSize ≤ 4096 := by
  obtain ⟨ino, h⟩ := tree.holds 2 tree.root
  have hsize := h.block_size
  omega

/-- The file that `ext2_cat` has found. -/
theorem KernelShell.Refines.cat_file {filename : Text} (h : s.Refines L bs tree entries a)
    (hnil : filename.chars ≠ [])
    (hlook : ext2Lookup L disk s.heap s.lookupBuf structs.lookup fs s.cwd.internalId filename =
      .ok st)
    (hheap : HeapRep L st.heap bs) (hne : st.result ≠ 0)
    (hplaced : Placed tree entries st.result ino) (hreg : isRegular ino = true)
    (hsize : iSize ino ≠ 0) :
    ∃ s', s.ext2Cat L disk fs structs filename = .ok s' ∧ s'.Refines L bs tree entries
      (a.print (shownText fs disk ino ++ ascii "\n")) := by
  obtain ⟨ino', hread, -, hreg', hsize', hblocks⟩ := hplaced.read_any structs.caller
  obtain ⟨hsec, hmax⟩ := tree.block_size
  let log := serialPuts (ascii "[cat] filename=" ++ filename.chars ++ ascii "\n") s.out
  let st₀ : Cat := ⟨log, iSize ino', s.catBuf⟩
  have hcat : KernelCustom.ext2Cat L disk s.heap s.lookupBuf structs.lookup fs s.cwd.internalId
      filename s.catBuf structs.caller s.out = (catBlocks fs disk ino' st₀).map fun st' =>
        ⟨st.heap, st.blockBuf, st'.blockBuf, vgaPuts (ascii "\n") st'.out⟩ :=
    ext2Cat_regular hnil hlook hne hread (hreg'.trans hreg) (by omega) s.catBuf
  have hst₀ : st₀.sizeRemaining = iSize ino' := rfl
  obtain ⟨c, hc, hvga⟩ :=
    catBlocks_prints hsec hmax ((hplaced.file hreg).congr hblocks) hst₀
  rw [shownText_congr hsize' hblocks] at hvga
  rw [hc] at hcat
  rw [ext2Cat, hcat]
  refine ⟨_, rfl, hheap, h.inode, h.dir, h.down, h.path, h.short, ?_⟩
  change c.out.vga ++ ascii "\n" = a.screen ++ (shownText fs disk ino ++ ascii "\n")
  rw [hvga, ← List.append_assoc, ← h.screen]
  rfl

theorem KernelShell.Refines.cat (h : s.Refines L bs tree entries a)
    (hp : Presents L bs tree entries) (path : Text) :
    ∃ s', s.ext2Cat L disk fs structs path = .ok s' ∧
      s'.Refines L bs tree entries (a.cat (driveView fs disk entries) path) := by
  rw [TreeShell.cat]
  by_cases hnil : path.chars = []
  · simp only [ext2Cat, KernelCustom.ext2Cat, if_pos hnil]
    refine ⟨_, rfl, ?_⟩
    exact ⟨h.heap, h.inode, h.dir, h.down, h.path, h.short,
      congrArg (· ++ ascii "cat: Missing filename.\n") h.screen⟩
  rw [if_neg hnil]
  obtain ⟨st, hlook, hres, hheap⟩ :=
    hp.lookup a.dir (h.down.dirs tree.root) s.heap h.heap s.lookupBuf structs.lookup path
  rw [← h.dir] at hlook
  have hfind : (driveView fs disk entries).find a.dir path = st.result := hres.symm
  rw [hfind]
  by_cases hzero : st.result = 0
  · simp only [ext2Cat, KernelCustom.ext2Cat, if_neg hnil, hlook, bind, Except.bind, if_pos hzero]
    refine ⟨_, rfl, ?_⟩
    exact ⟨hheap, h.inode, h.dir, h.down, h.path, h.short,
      congrArg (· ++ ascii "cat: File not found.\n") h.screen⟩
  rw [if_neg hzero]
  obtain ⟨ino, hplaced, -⟩ := hp.found h.down (hres ▸ hzero)
  rw [← hres] at hplaced
  obtain ⟨ino', hread, hmode, hreg', hsize', -⟩ := hplaced.read_any structs.caller
  have hnode : (driveView fs disk entries).node st.result = _ := hplaced.node_eq
  rw [hnode]
  by_cases hdir : isDirectory ino = true
  · rw [if_pos hdir]
    simp only [ext2Cat, KernelCustom.ext2Cat, if_neg hnil, hlook, bind, Except.bind, if_neg hzero,
      hread, hmode, if_pos hdir]
    refine ⟨_, rfl, ?_⟩
    exact ⟨hheap, h.inode, h.dir, h.down, h.path, h.short,
      congrArg (· ++ ascii "cat: Cannot cat a directory.\n") h.screen⟩
  rw [if_neg hdir]
  by_cases hreg : isRegular ino = true
  · rw [if_pos hreg]
    by_cases hsize : iSize ino = 0
    · simp only [ext2Cat, KernelCustom.ext2Cat, if_neg hnil, hlook, bind, Except.bind, if_neg hzero,
        hread, hmode, if_neg hdir, hreg', hreg, not_true_eq_false, if_false, hsize', if_pos hsize]
      refine ⟨_, rfl, ?_⟩
      exact ⟨hheap, h.inode, h.dir, h.down, h.path, h.short, h.screen⟩
    · dsimp only
      rw [if_neg hsize]
      exact h.cat_file hnil hlook hheap hzero hplaced hreg hsize
  · rw [if_neg hreg]
    simp only [ext2Cat, KernelCustom.ext2Cat, if_neg hnil, hlook, bind, Except.bind, if_neg hzero,
      hread, hmode, if_neg hdir, hreg', if_pos hreg]
    refine ⟨_, rfl, ?_⟩
    exact ⟨hheap, h.inode, h.dir, h.down, h.path, h.short,
      congrArg (· ++ ascii "cat: Not a regular file.\n") h.screen⟩

/-- A listing of a directory of the tree. -/
theorem KernelShell.Refines.ls (h : s.Refines L bs tree entries a)
    (hp : Presents L bs tree entries) (hd : tree.dirs d) :
    ∃ s', s.ext2Ls L disk fs structs d = .ok s' ∧
      s'.Refines L bs tree entries (a.print ((driveView fs disk entries).listing d)) := by
  obtain ⟨st, hls, hvga, hheap⟩ := hp.list d hd s.heap h.heap s.lsBuf structs.ls s.out
  rw [ext2Ls, hls]
  refine ⟨_, rfl, hheap, h.inode, h.dir, h.down, h.path, h.short, ?_⟩
  dsimp only
  rw [hvga, h.screen]
  rfl

/-- A round of `resolve_path` takes a name or a slash off the path. -/
theorem cutName_shorter (h : path ≠ []) : (cutName path).2.length < path.length := by
  obtain ⟨c, rest, rfl⟩ := List.exists_cons_of_ne_nil h
  have hdrop := List.length_drop (l := c :: rest)
    (i := (((c :: rest).takeWhile (· ≠ slash)).take 31).length)
  simp only [cutName]
  by_cases hc : c = slash
  · have hname : (c :: rest).takeWhile (· ≠ slash) = [] := by simp [hc]
    rw [hname, hc]
    exact Nat.lt_succ_self _
  · have hname : 0 < (((c :: rest).takeWhile (· ≠ slash)).take 31).length := by simp [hc]
    split
    · rw [List.length_tail]
      simp only [List.length_cons] at hdrop ⊢
      omega
    · simp only [List.length_cons] at hdrop ⊢
      omega

/-- `find_inode_in_dir` looks into directories and finds nothing elsewhere. -/
theorem Presents.find_placed (hp : Presents L bs tree entries) (hrep : HeapRep L heap bs)
    (hd : Placed tree entries d ino) (blockBuf inode : Mem) (name : Text) :
    ∃ st, findInodeInDir L disk heap blockBuf inode fs d name = .ok st ∧
      st.result = inodeNamed (entries d) name ∧ HeapRep L st.heap bs ∧
      (st.result = 0 ∨ ∃ ino, Placed tree entries st.result ino) := by
  by_cases hdir : isDirectory ino = true
  · obtain ⟨names, hdown⟩ := hd.directory hdir
    obtain ⟨st, hfind, hres, hheap⟩ :=
      hp.find d (hdown.dirs tree.root) heap hrep blockBuf inode name
    refine ⟨st, hfind, hres, hheap, ?_⟩
    by_cases hzero : st.result = 0
    · exact .inl hzero
    · obtain ⟨ino', hplaced, -⟩ := hp.found hdown (hres ▸ hzero)
      rw [← hres] at hplaced
      exact .inr ⟨ino', hplaced⟩
  · have hout : entries d = [] := by
      refine hp.outside d fun hdirs => ?_
      obtain ⟨ino', h⟩ := tree.holds d hdirs
      have hread := h.read
      rw [hd.read] at hread
      cases hread
      exact hdir h.directory
    obtain ⟨ino', hread, hmode, -⟩ := hd.read_any inode
    refine ⟨⟨heap, blockBuf, 0, 0⟩, ?_, ?_, hrep, .inl rfl⟩
    · simp only [findInodeInDir, hread, bind, Except.bind, hmode, if_neg hdir]
    · rw [hout]
      rfl

/-- The loop of `resolve_path` stays in the tree. -/
theorem Presents.resolveNames (hp : Presents L bs tree entries) (hrep : HeapRep L w.heap bs)
    (hw : Placed tree entries w.currentInode ino) (hfuel : path.length < fuel)
    (stack : Nat → Mem) :
    ∃ w', resolveNames L disk fs fuel stack path w = .ok w' ∧ HeapRep L w'.heap bs ∧
      resolveNamesBy (treeFind entries) fuel path () w.currentInode = .ok ((), w'.currentInode) ∧
      (w'.currentInode = 0 ∨ ∃ ino, Placed tree entries w'.currentInode ino) := by
  induction fuel generalizing stack path w ino with
  | zero => omega
  | succ fuel ih =>
    rw [KernelCustom.resolveNames, resolveNamesBy]
    by_cases hnil : path = []
    · rw [if_pos hnil, if_pos hnil]
      exact ⟨w, rfl, hrep, rfl, .inr ⟨ino, hw⟩⟩
    · obtain ⟨st, hfind, hres, hheap, hnext⟩ :=
        hp.find_placed hrep hw w.blockBuf (stack 0) (.ofBytes (cutName path).1)
      have hshort := cutName_shorter hnil
      rw [if_neg hnil, if_neg hnil]
      simp only [hfind, treeFind, bind, Except.bind, ← hres]
      by_cases hzero : st.result = 0
      · rw [if_pos hzero, if_pos hzero]
        refine ⟨_, rfl, hheap, ?_, .inl hzero⟩
        rw [hzero]
      · rw [if_neg hzero, if_neg hzero]
        obtain ⟨ino', hplaced⟩ := hnext.resolve_left hzero
        exact ih hheap hplaced (by omega) _

theorem Presents.resolvePath (hp : Presents L bs tree entries) (hrep : HeapRep L heap bs)
    (blockBuf : Mem) (stack : Nat → Mem) (path : Text) :
    ∃ w, resolvePath L disk fs heap blockBuf stack path = .ok w ∧ HeapRep L w.heap bs ∧
      (driveView fs disk entries).resolve path = w.currentInode ∧
      (w.currentInode = 0 ∨ ∃ ino, Placed tree entries w.currentInode ino) := by
  obtain ⟨root, hroot, -⟩ : ∃ ino, Placed tree entries 2 ino ∧ isDirectory ino = true :=
    tree.placed_dir .nil
  rw [KernelCustom.resolvePath, FileView.resolve, resolvePathBy]
  by_cases hnil : path.chars = []
  · rw [if_pos hnil, if_pos hnil]
    exact ⟨_, rfl, hrep, rfl, .inl rfl⟩
  rw [if_neg hnil, if_neg hnil]
  by_cases hslash : path.chars = [slash]
  · rw [if_pos ((strcmp_eq_zero_iff _ _).2 hslash), if_pos ((strcmp_eq_zero_iff _ _).2 hslash)]
    exact ⟨_, rfl, hrep, rfl, .inr ⟨root, hroot⟩⟩
  · rw [if_neg fun hcmp => hslash ((strcmp_eq_zero_iff _ _).1 hcmp),
      if_neg fun hcmp => hslash ((strcmp_eq_zero_iff _ _).1 hcmp)]
    obtain ⟨w, hw, hheap, hby, hend⟩ :=
      hp.resolveNames (w := ⟨heap, blockBuf, 2, []⟩) hrep hroot (Nat.lt_succ_self _) stack
    refine ⟨w, hw, hheap, ?_, hend⟩
    dsimp only [driveView] at hby ⊢
    rw [hby]

theorem KernelShell.Refines.lsPath (h : s.Refines L bs tree entries a)
    (hp : Presents L bs tree entries) (path : Text) :
    ∃ s', s.lsPath L disk fs structs path = .ok s' ∧
      s'.Refines L bs tree entries (a.lsPath (driveView fs disk entries) path) := by
  obtain ⟨w, hw, hheap, hres, hend⟩ := hp.resolvePath h.heap s.findBuf structs.find path
  have h₁ : KernelShell.Refines L bs tree entries
      { s with heap := w.heap, findBuf := w.blockBuf, searched := s.searched ++ w.searched } a :=
    ⟨hheap, h.inode, h.dir, h.down, h.path, h.short, h.screen⟩
  simp only [KernelShell.lsPath, resolvePath, hw, Except.map, bind, Except.bind, TreeShell.lsPath,
    hres]
  by_cases hzero : w.currentInode = 0
  · rw [if_neg (not_not.2 hzero), if_pos hzero]
    exact ⟨_, rfl, h₁.print _⟩
  rw [if_pos hzero, if_neg hzero]
  obtain ⟨ino, hplaced⟩ := hend.resolve_left hzero
  obtain ⟨ino', hread, hmode, -⟩ := hplaced.read_any structs.caller
  have hnode : (driveView fs disk entries).node w.currentInode = _ := hplaced.node_eq
  simp only [hread, hmode, hnode]
  by_cases hdir : isDirectory ino = true
  · obtain ⟨names, hdown⟩ := hplaced.directory hdir
    simp only [if_pos hdir, if_true]
    exact h₁.ls hp (hdown.dirs tree.root)
  · have hother : ¬ (if isRegular ino then Node.file (iSize ino) (shownText fs disk ino)
        else .other) = .directory := by
      split <;> simp
    simp only [if_neg hdir, if_neg hother]
    exact ⟨_, rfl, h₁.print _⟩

/-- One line that runs no program. -/
theorem KernelShell.Refines.handleCommand (h : s.Refines L bs tree entries a)
    (hp : Presents L bs tree entries) (programs : Programs) (structs : Structs) (cmd : Text)
    (hfits : a.Fits (driveView fs disk entries) cmd) :
    ∃ s', KernelCustom.handleCommand L disk fs programs structs s cmd = .ok s' ∧
      s'.Refines L bs tree entries (a.handleCommand (driveView fs disk entries) cmd) := by
  obtain ⟨hviews, hshort⟩ := hfits
  have h₀ : KernelShell.Refines L bs tree entries { s with searched := [] } a :=
    ⟨h.heap, h.inode, h.dir, h.down, h.path, h.short, h.screen⟩
  rw [TreeShell.handleCommand] at hshort ⊢
  rw [KernelCustom.handleCommand]
  cases hcmd : parseCommand cmd with
  | help => exact ⟨_, rfl, h₀.print _⟩
  | missingFilename => exact ⟨_, rfl, h₀.print _⟩
  | unknown cmd => exact ⟨_, rfl, h₀.print _⟩
  | nothing => exact ⟨_, rfl, h₀⟩
  | cd path =>
    rw [hcmd] at hshort
    exact h₀.cd hp path hshort
  | cat filename => exact h₀.cat hp filename
  | ls =>
    have hroot : tree.dirs s.gCwdInode := h.inode ▸ tree.root
    have hls : a.command (driveView fs disk entries) .ls =
        a.print ((driveView fs disk entries).listing s.gCwdInode) := by
      rw [h.inode]
      rfl
    rw [hls]
    exact h₀.ls hp hroot
  | lsPath path => exact h₀.lsPath hp path
  | clear => exact ⟨_, rfl, h.heap, h.inode, h.dir, h.down, h.path, h.short, rfl⟩
  | testRing3 =>
    rw [hcmd] at hviews
    cases hviews
  | program filepath =>
    rw [hcmd] at hviews
    cases hviews

end

end KernelCustom
