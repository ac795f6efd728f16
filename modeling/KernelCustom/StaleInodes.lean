import KernelCustom.PathWalk
import KernelCustom.DirectoryScan
import KernelCustom.MountSafety

namespace KernelCustom
open Word32 ByteStore CString
set_option autoImplicit true

/-- The inode numbers for which `read_inode` writes the caller's struct. -/
def ValidInode (fs : FileSystem) (n : Nat) : Prop := 1 ≤ n ∧ n ≤ fs.gSb.inodesCount

theorem readInode_invalid (h : ¬ ValidInode fs n) (disk : Disk) (outInode : Mem) :
    readInode fs disk n outInode = .ok outInode := by
  rw [ValidInode] at h
  rw [readInode, if_pos (by omega)]

/-- For a valid number the call fails whatever the struct holds, or it brings one record. -/
theorem readInode_valid (h : ValidInode fs n) (disk : Disk) :
    (∃ e, ∀ outInode, readInode fs disk n outInode = .error e) ∨
      ∃ ino, ∀ outInode, ∃ inode, readInode fs disk n outInode = .ok inode ∧
        SameOn ino inode 0 fs.gInodeSize := by
  cases hsource : inodeSource fs disk n with
  | error e =>
    left
    refine ⟨e, fun outInode => ?_⟩
    rw [readInode_eq_map h, hsource]
    rfl
  | ok src =>
    right
    refine ⟨src, fun outInode => ?_⟩
    rw [readInode_eq_map h, hsource]
    refine ⟨_, rfl, ?_⟩
    intro x _ hx
    exact if_pos hx

/-- A valid number whose record is no longer than the caller's struct, or is not read to its end. -/
structure FitsStruct (fs : FileSystem) (disk : Disk) (n : Nat) : Prop where
  valid : ValidInode fs n
  fits : fs.gInodeSize ≤ 128 ∨ ∃ e, readInode fs disk n zeroed = .error e

/-- What `find_inode_in_dir` and `ext2_lookup` have in common. -/
def lookIn (L : Layout) (disk : Disk) (heap : MemoryState) (blockBuf inode : Mem)
    (fs : FileSystem) (visit : Visit Nat) (dir : Nat) : Except Stuck (Scan Nat) := do
  let inode ← readLocalInode fs disk dir inode
  if isDirectory inode then scanDirectory L fs disk visit inode ⟨heap, blockBuf, 0, 0⟩
  else .ok ⟨heap, blockBuf, 0, 0⟩

/-- A struct that looks like a directory whose only block has a number above the last allowed. -/
def falseDirectory : Mem := fun i =>
  if i = 1 then 0x40 else if i = 4 ∨ i = 40 then 1 else if i = 42 then 0x10 else 0

/-- For a number that fits, the call fails in one way whatever the struct holds, or it brings one
record. -/
theorem FitsStruct.read (h : FitsStruct fs disk n) :
    (∃ e, e ≠ .smashed ∧ ∀ inode, readLocalInode fs disk n inode = .error e) ∨
      ∃ ino, ∀ inode, ∃ inode', readLocalInode fs disk n inode = .ok inode' ∧
        SameOn ino inode' 0 fs.gInodeSize := by
  rcases readInode_valid h.valid disk with ⟨e, he⟩ | ⟨ino, hread⟩
  · refine .inl ⟨e, ?_, fun inode => ?_⟩
    · rintro rfl
      exact readInode_keeps_frame fs disk n zeroed (he zeroed)
    · rw [readLocalInode, he]
      rfl
  · have hi : fs.gInodeSize ≤ 128 := by
      refine h.fits.resolve_right ?_
      rintro ⟨e, he⟩
      obtain ⟨inode', hok, -⟩ := hread zeroed
      rw [hok] at he
      cases he
    refine .inr ⟨ino, fun inode => ?_⟩
    rw [readLocalInode_of_fits hi]
    exact hread inode

/-- A valid number that does not fit: no call comes back with it. -/
theorem readLocalInode_of_not_fits (hn : ValidInode fs n) (h : ¬ FitsStruct fs disk n)
    (inode : Mem) : readLocalInode fs disk n inode = .error .smashed := by
  have hnot : ¬ (fs.gInodeSize ≤ 128 ∨ ∃ e, readInode fs disk n zeroed = .error e) :=
    fun hfits => h ⟨hn, hfits⟩
  obtain ⟨hi, hok⟩ := not_or.1 hnot
  rw [readLocalInode_smashed hn (by omega)]
  rcases readInode_valid hn disk with ⟨e, he⟩ | ⟨ino, hread⟩
  · exact absurd ⟨e, he zeroed⟩ hok
  · obtain ⟨inode', hread, -⟩ := hread inode
    rw [hread]
    rfl

/-- Two runs with one result. A run that has lost its frame has none. -/
structure SameResult (x y : Except Stuck α) : Prop where
  keeps : x ≠ .error .smashed
  same : x = y

theorem SameResult.ok (a : α) : SameResult (.ok a) (.ok a) := ⟨by simp, rfl⟩

theorem SameResult.error (hne : e ≠ .smashed) :
    SameResult (.error e : Except Stuck α) (.error e) :=
  ⟨fun heq => hne (Except.error.inj heq), rfl⟩

theorem SameResult.ne_smashed {x : Except Stuck α} (h : SameResult x y) (hx : x = .error e) :
    e ≠ .smashed :=
  fun he => h.keeps (hx.trans (congrArg _ he))

theorem SameResult.map {x y : Except Stuck α} (h : SameResult x y) (f : α → β) :
    SameResult (x.map f) (y.map f) := by
  obtain ⟨hkeeps, rfl⟩ := h
  cases x with
  | error e => exact .error fun he => hkeeps (congrArg _ he)
  | ok a => exact .ok (f a)

section
variable {L : Layout} {disk : Disk} {heap : MemoryState} {blockBuf : Mem} {fs : FileSystem}
  {visit : Visit Nat} {dir : Nat}

theorem lookIn_fits (hi : 92 ≤ fs.gInodeSize) (hdir : FitsStruct fs disk dir) (inode inode' : Mem) :
    SameResult (lookIn L disk heap blockBuf inode fs visit dir)
      (lookIn L disk heap blockBuf inode' fs visit dir) := by
  rw [lookIn, lookIn]
  rcases hdir.read with ⟨e, hne, he⟩ | ⟨ino, hread⟩
  · rw [he, he]
    exact .error hne
  · obtain ⟨ino₁, h₁, hsame₁⟩ := hread inode
    obtain ⟨ino₂, h₂, hsame₂⟩ := hread inode'
    replace hsame₁ := hsame₁.mono (Nat.le_refl 0) hi
    replace hsame₂ := hsame₂.mono (Nat.le_refl 0) hi
    have hmode : isDirectory ino₁ = isDirectory ino₂ := by
      rw [isDirectory, isDirectory, hsame₁.load16 (by omega) (by omega),
        hsame₂.load16 (by omega) (by omega)]
    rw [h₁, h₂]
    simp only [bind, Except.bind, hmode, scanDirectory_congr L fs disk hsame₁,
      scanDirectory_congr L fs disk hsame₂]
    split
    · exact ⟨scanDirectory_keeps_frame fs disk L visit ino _, rfl⟩
    · exact .ok _

theorem lookIn_not_fits (hn : ValidInode fs dir) (h : ¬ FitsStruct fs disk dir) (inode : Mem) :
    lookIn L disk heap blockBuf inode fs visit dir = .error .smashed := by
  rw [lookIn, readLocalInode_of_not_fits hn h]
  rfl

theorem lookIn_zeroed (hdir : ¬ ValidInode fs dir) :
    lookIn L disk heap blockBuf zeroed fs visit dir = .ok ⟨heap, blockBuf, 0, 0⟩ := by
  rw [lookIn, readLocalInode_invalid hdir]
  rfl

/-- For a number that is not valid, the struct can send the scan to a block that is not there. -/
theorem lookIn_falseDirectory (hdir : ¬ ValidInode fs dir)
    (hbs : 0 < fs.gBlockSize ∧ fs.gBlockSize < 4294967296) :
    lookIn L disk heap blockBuf falseDirectory fs visit dir = .error .hang := by
  have hmode : isDirectory falseDirectory = true := by decide
  have hsize : iSize falseDirectory = 1 := by decide
  have hblock : iBlock falseDirectory 0 = 0x100001 := by decide
  have hcount : wrap (1 + fs.gBlockSize - 1) / fs.gBlockSize = 1 := by
    rw [Nat.add_sub_cancel_left, wrap_of_lt hbs.2, Nat.div_self hbs.1]
  rw [lookIn, readLocalInode_invalid hdir]
  simp only [bind, Except.bind, if_pos hmode, scanDirectory]
  rw [if_neg (by omega), hsize, hcount, if_neg (by decide), scanBlocks, blockIdOf,
    if_pos (by decide), hblock]
  rfl

/-- A look-up that does not show its struct, whatever is done with its result, has a number that
fits. -/
theorem fits_of_same (hbs : 0 < fs.gBlockSize ∧ fs.gBlockSize < 4294967296)
    (f : Except Stuck (Scan Nat) → Except Stuck α) (herror : ∀ e, f (.error e) = .error e)
    (hzero : ∃ a, f (.ok ⟨heap, blockBuf, 0, 0⟩) = .ok a)
    (h : SameResult (f (lookIn L disk heap blockBuf zeroed fs visit dir))
      (f (lookIn L disk heap blockBuf falseDirectory fs visit dir))) : FitsStruct fs disk dir := by
  obtain ⟨hkeeps, hsame⟩ := h
  by_contra hfits
  by_cases hdir : ValidInode fs dir
  · rw [lookIn_not_fits hdir hfits, herror] at hkeeps
    exact hkeeps rfl
  · obtain ⟨a, ha⟩ := hzero
    rw [lookIn_zeroed hdir, lookIn_falseDirectory hdir hbs, herror, ha] at hsame
    cases hsame

end

/-- All inode numbers that the loop of `resolve_path` looks in are of a kind: the one it starts from
and, name by name, those of the entries that it finds. -/
def NumbersHold (P : Nat → Prop) (L : Layout) (disk : Disk) (fs : FileSystem) :
    Nat → List UInt8 → Walk → Prop
  | 0, _, _ => True
  | fuel + 1, path, w => path ≠ [] → P w.currentInode ∧
      ∀ r, findInodeInDir L disk w.heap w.blockBuf zeroed fs w.currentInode
          (.ofBytes (cutName path).1) = .ok r → r.result ≠ 0 →
        NumbersHold P L disk fs fuel (cutName path).2
          ⟨r.heap, r.blockBuf, r.result, w.searched ++ [w.currentInode]⟩

/-- The same for `resolve_path`, which starts at the root. For `/` it reads no inode. -/
def PathHolds (P : Nat → Prop) (L : Layout) (disk : Disk) (fs : FileSystem) (heap : MemoryState)
    (blockBuf : Mem) (path : Text) : Prop :=
  path.chars = [slash] ∨
    let path := if path.chars.head? = some slash then path.chars.tail else path.chars
    NumbersHold P L disk fs (path.length + 1) path ⟨heap, blockBuf, 2, []⟩

/-- `ext2_cd` reads the inode of the current directory and that of the entry it finds there. For an
empty path it reads none. -/
def CdHolds (P : Nat → Prop) (L : Layout) (disk : Disk) (fs : FileSystem) (heap : MemoryState)
    (blockBuf : Mem) (dir : Nat) (path : Text) : Prop :=
  path.chars = [] ∨ P dir ∧
    ∀ r, ext2Lookup L disk heap blockBuf zeroed fs dir path = .ok r → r.result ≠ 0 → P r.result

/-- The struct that a first call finds, and those of the calls behind it. -/
def pushStruct (inode : Mem) (stack : Nat → Mem) : Nat → Mem
  | 0 => inode
  | k + 1 => stack k

section
variable {L : Layout} {disk : Disk} {fs : FileSystem}

theorem resolveNames_holds (stack : Nat → Mem)
    (h : NumbersHold (fun n => 92 ≤ fs.gInodeSize ∧ FitsStruct fs disk n) L disk fs fuel path w) :
    SameResult (resolveNames L disk fs fuel stack path w)
      (resolveNames L disk fs fuel (fun _ => zeroed) path w) := by
  induction fuel generalizing stack path w with
  | zero => exact .error (by simp)
  | succ fuel ih =>
    rw [resolveNames, resolveNames]
    by_cases hnil : path = []
    · rw [if_pos hnil, if_pos hnil]
      exact .ok _
    · obtain ⟨⟨hi, hcur⟩, hnext⟩ := h hnil
      have hfind : SameResult
          (findInodeInDir L disk w.heap w.blockBuf (stack 0) fs w.currentInode
            (.ofBytes (cutName path).1))
          (findInodeInDir L disk w.heap w.blockBuf zeroed fs w.currentInode
            (.ofBytes (cutName path).1)) := lookIn_fits hi hcur _ _
      rw [if_neg hnil, if_neg hnil]
      dsimp only
      rw [hfind.same]
      cases hr : findInodeInDir L disk w.heap w.blockBuf zeroed fs w.currentInode
          (.ofBytes (cutName path).1) with
      | error e => exact .error (hfind.ne_smashed (hfind.same.trans hr))
      | ok r =>
        simp only [bind, Except.bind]
        split
        · exact .ok _
        · exact ih _ (hnext r hr ‹_›)

/-- The first number on the way that does not fit lets the structs decide, or the frame is lost. -/
theorem numbersHold_of_same (hbs : 0 < fs.gBlockSize ∧ fs.gBlockSize < 4294967296)
    (h : ∀ stack stack', SameResult
      ((resolveNames L disk fs fuel stack path w).map Walk.currentInode)
      ((resolveNames L disk fs fuel stack' path w).map Walk.currentInode)) :
    NumbersHold (FitsStruct fs disk) L disk fs fuel path w := by
  induction fuel generalizing path w with
  | zero => trivial
  | succ fuel ih =>
    intro hnil
    have hstep : ∀ inode stack, resolveNames L disk fs (fuel + 1) (pushStruct inode stack) path w =
        findInodeInDir L disk w.heap w.blockBuf inode fs w.currentInode
          (.ofBytes (cutName path).1) >>= fun r =>
        if r.result = 0 then .ok ⟨r.heap, r.blockBuf, r.result, w.searched ++ [w.currentInode]⟩
        else resolveNames L disk fs fuel stack (cutName path).2
          ⟨r.heap, r.blockBuf, r.result, w.searched ++ [w.currentInode]⟩ := by
      intro inode stack
      rw [resolveNames, if_neg hnil]
      rfl
    refine ⟨?_, fun r hr hne => ih fun stack stack' => ?_⟩
    · have hsame := h (pushStruct zeroed fun _ => zeroed)
        (pushStruct falseDirectory fun _ => zeroed)
      rw [hstep, hstep] at hsame
      exact fits_of_same hbs (fun x => (x >>= _).map Walk.currentInode) (fun _ => rfl) ⟨_, rfl⟩
        hsame
    · have hsame := h (pushStruct zeroed stack) (pushStruct zeroed stack')
      rw [hstep, hstep, hr] at hsame
      simp only [bind, Except.bind, if_neg hne] at hsame
      exact hsame

end

section
variable (L : Layout) (disk : Disk) (fs : FileSystem) (heap : MemoryState) (blockBuf : Mem)

/-- `ext2_lookup` returns one number, whatever its struct holds. -/
def LookupIgnoresStruct (dir : Nat) (name : Text) : Prop := ∀ inode inode', SameResult
  ((ext2Lookup L disk heap blockBuf inode fs dir name).map Scan.result)
  ((ext2Lookup L disk heap blockBuf inode' fs dir name).map Scan.result)

/-- `resolve_path` returns one number, whatever the structs of its calls hold. -/
def ResolveIgnoresStructs (path : Text) : Prop := ∀ stack stack', SameResult
  ((resolvePath L disk fs heap blockBuf stack path).map Walk.currentInode)
  ((resolvePath L disk fs heap blockBuf stack' path).map Walk.currentInode)

/-- `ext2_cd` leaves one path and one directory, whatever the two structs hold. -/
def CdIgnoresStructs (cwd : Cwd) (path : Text) (out : Console) : Prop :=
  ∀ lookupInode inode lookupInode' inode', SameResult
  ((ext2Cd L disk heap blockBuf lookupInode fs cwd path inode out).map
    fun r => (r.cwd.gCwdPath, r.cwd.internalId))
  ((ext2Cd L disk heap blockBuf lookupInode' fs cwd path inode' out).map
    fun r => (r.cwd.gCwdPath, r.cwd.internalId))

end

section
variable {L : Layout} {disk : Disk} {fs : FileSystem} {heap : MemoryState} {blockBuf : Mem}

theorem lookup_fits_of_same (hbs : 0 < fs.gBlockSize ∧ fs.gBlockSize < 4294967296)
    (h : LookupIgnoresStruct L disk fs heap blockBuf dir name) : FitsStruct fs disk dir := by
  exact fits_of_same hbs (Except.map Scan.result) (fun _ => rfl) ⟨_, rfl⟩ (h zeroed falseDirectory)

theorem lookup_same_of_fits (hi : 92 ≤ fs.gInodeSize) (hdir : FitsStruct fs disk dir) :
    LookupIgnoresStruct L disk fs heap blockBuf dir name := by
  intro inode inode'
  exact SameResult.map (lookIn_fits hi hdir inode inode') Scan.result

theorem resolve_holds_of_same (hbs : 0 < fs.gBlockSize ∧ fs.gBlockSize < 4294967296)
    (h : ResolveIgnoresStructs L disk fs heap blockBuf path) :
    PathHolds (FitsStruct fs disk) L disk fs heap blockBuf path := by
  by_cases hroot : path.chars = [slash]
  · exact .inl hroot
  right
  by_cases hnil : path.chars = []
  · rw [hnil]
    exact fun hne => absurd rfl hne
  · apply numbersHold_of_same hbs
    intro stack stack'
    have hsame := h stack stack'
    rw [resolvePath_loop hroot, resolvePath_loop hroot, if_neg hnil, if_neg hnil] at hsame
    exact hsame

theorem resolve_same_of_holds
    (h : PathHolds (fun n => 92 ≤ fs.gInodeSize ∧ FitsStruct fs disk n) L disk fs heap blockBuf
      path) :
    ResolveIgnoresStructs L disk fs heap blockBuf path := by
  intro stack stack'
  refine SameResult.map ?_ _
  by_cases hroot : path.chars = [slash]
  · have hcmp : strcmp path ⟨[slash], by decide⟩ = 0 := (strcmp_eq_zero_iff _ _).2 hroot
    have hnil : path.chars ≠ [] := by
      rw [hroot]
      exact List.cons_ne_nil _ _
    rw [resolvePath, resolvePath, if_neg hnil, if_neg hnil, if_pos hcmp, if_pos hcmp]
    exact .ok _
  · rw [resolvePath_loop hroot, resolvePath_loop hroot]
    by_cases hnil : path.chars = []
    · rw [if_pos hnil, if_pos hnil]
      exact .ok _
    · rw [if_neg hnil, if_neg hnil]
      have hnames := h.resolve_left hroot
      obtain ⟨hkeeps, hsame⟩ := resolveNames_holds stack hnames
      obtain ⟨-, hsame'⟩ := resolveNames_holds stack' hnames
      exact ⟨hkeeps, hsame.trans hsame'.symm⟩

theorem cd_holds_of_same (hbs : 0 < fs.gBlockSize ∧ fs.gBlockSize < 4294967296)
    (h : CdIgnoresStructs L disk fs heap blockBuf cwd path out) :
    CdHolds (FitsStruct fs disk) L disk fs heap blockBuf cwd.internalId path := by
  by_cases hnil : path.chars = []
  · exact .inl hnil
  have hdir : FitsStruct fs disk cwd.internalId := by
    have hsame := h zeroed zeroed falseDirectory zeroed
    rw [ext2Cd, ext2Cd, if_neg hnil, if_neg hnil] at hsame
    exact fits_of_same hbs (fun x => (x >>= _).map _) (fun _ => rfl) ⟨_, rfl⟩ hsame
  refine .inr ⟨hdir, fun r hr hne => ?_⟩
  by_contra hfits
  obtain ⟨hkeeps, hsame⟩ := h zeroed zeroed zeroed falseDirectory
  rw [ext2Cd, ext2Cd, if_neg hnil, if_neg hnil, hr] at hsame
  rw [ext2Cd, if_neg hnil, hr] at hkeeps
  simp only [bind, Except.bind, if_neg hne] at hkeeps hsame
  by_cases hres : ValidInode fs r.result
  · rw [readLocalInode_of_not_fits hres hfits] at hkeeps
    exact hkeeps rfl
  · -- one struct leaves the directory as it is, the other moves to a number that is not valid
    simp only [readLocalInode_invalid hres] at hsame
    have hid := congrArg Prod.snd (Except.ok.inj hsame)
    change cwd.internalId = r.result at hid
    exact hres (hid ▸ hdir.valid)

theorem cd_same_of_holds
    (h : CdHolds (fun n => 92 ≤ fs.gInodeSize ∧ FitsStruct fs disk n) L disk fs heap blockBuf
      cwd.internalId path) :
    CdIgnoresStructs L disk fs heap blockBuf cwd path out := by
  intro lookupInode inode lookupInode' inode'
  refine SameResult.map ?_ _
  by_cases hnil : path.chars = []
  · rw [ext2Cd, ext2Cd, if_pos hnil, if_pos hnil]
    exact .ok _
  obtain ⟨⟨hi, hdir⟩, hres⟩ := h.resolve_left hnil
  have hlook : ∀ g, SameResult (ext2Lookup L disk heap blockBuf g fs cwd.internalId path)
      (ext2Lookup L disk heap blockBuf zeroed fs cwd.internalId path) :=
    fun g => lookIn_fits hi hdir g zeroed
  rw [ext2Cd, ext2Cd, if_neg hnil, if_neg hnil, (hlook lookupInode).same,
    (hlook lookupInode').same]
  cases hr : ext2Lookup L disk heap blockBuf zeroed fs cwd.internalId path with
  | error e => exact .error ((hlook zeroed).ne_smashed hr)
  | ok r =>
    simp only [bind, Except.bind]
    by_cases hzero : r.result = 0
    · rw [if_pos hzero, if_pos hzero]
      exact .ok _
    rw [if_neg hzero, if_neg hzero]
    rcases (hres r hr hzero).2.read with ⟨e, hne, he⟩ | ⟨ino, hread⟩
    · rw [he, he]
      exact .error hne
    · obtain ⟨ino₁, h₁, hsame₁⟩ := hread inode
      obtain ⟨ino₂, h₂, hsame₂⟩ := hread inode'
      have hmode : isDirectory ino₁ = isDirectory ino₂ := by
        rw [isDirectory, isDirectory, hsame₁.load16 (by omega) (by omega),
          hsame₂.load16 (by omega) (by omega)]
      simp only [h₁, h₂, hmode]
      split <;> exact .ok _

end

/-- The results of the three functions show what is left in an inode struct exactly when a number
outside the inode table is looked at, as long as the records that are read reach to `i_block[12]`
and end in the struct. -/
theorem results_ignore_structs_iff (hm : mount disk root = .ok fs) (L : Layout)
    (heap : MemoryState) (blockBuf : Mem) (dir : Nat) (name path : Text) (cwd : Cwd)
    (out : Console) :
    ((LookupIgnoresStruct L disk fs heap blockBuf dir name → FitsStruct fs disk dir) ∧
      (ResolveIgnoresStructs L disk fs heap blockBuf path →
        PathHolds (FitsStruct fs disk) L disk fs heap blockBuf path) ∧
      (CdIgnoresStructs L disk fs heap blockBuf cwd path out →
        CdHolds (FitsStruct fs disk) L disk fs heap blockBuf cwd.internalId path)) ∧
    (92 ≤ fs.gInodeSize ∧ FitsStruct fs disk dir →
      LookupIgnoresStruct L disk fs heap blockBuf dir name) ∧
    (PathHolds (fun n => 92 ≤ fs.gInodeSize ∧ FitsStruct fs disk n) L disk fs heap blockBuf path →
      ResolveIgnoresStructs L disk fs heap blockBuf path) ∧
    (CdHolds (fun n => 92 ≤ fs.gInodeSize ∧ FitsStruct fs disk n) L disk fs heap blockBuf
        cwd.internalId path →
      CdIgnoresStructs L disk fs heap blockBuf cwd path out) := by
  have hbs : 0 < fs.gBlockSize ∧ fs.gBlockSize < 4294967296 := by
    have := mount_blockSize hm
    omega
  exact ⟨⟨lookup_fits_of_same hbs, resolve_holds_of_same hbs, cd_holds_of_same hbs⟩,
    fun h => lookup_same_of_fits h.1 h.2, resolve_same_of_holds, cd_same_of_holds⟩

/-- A raw image with 1 KiB blocks and sixteen inodes whose root directory has one entry, `x`, with
the inode number 100. -/
def strayEntryImage : Disk := sparseDisk
  [(1024, 16), (1044, 1), (1064, 16), (1080, 0x53), (1081, 0xEF), (2056, 5),
    (5248, 0xED), (5249, 0x41), (5253, 0x04), (5288, 8),
    (8192, 100), (8197, 0x04), (8198, 1), (8199, 2), (8200, 0x78)]

/-- A struct that still holds the inode of a directory of one block, block 8. -/
def staleDirectory : Mem := fun i =>
  if i = 1 then 0x40 else if i = 5 then 4 else if i = 40 then 8 else 0

def nameX : Text := ⟨[0x78], by decide⟩
def pathXX : Text := ⟨[0x78, slash, 0x78], by decide⟩

theorem mount_strayEntryImage : ∃ fs, mount strayEntryImage zeroed = .ok fs ∧
    fs.gInodeSize = 128 ∧ fs.gSb.inodesCount = 16 ∧
    (resolvePath Layout.sample strayEntryImage fs bootMemory zeroed (fun _ => zeroed) pathXX).map
      Walk.currentInode = .ok 0 ∧
    (resolvePath Layout.sample strayEntryImage fs bootMemory zeroed (fun _ => staleDirectory)
      pathXX).map Walk.currentInode = .ok 100 :=
  exists_ok (by decide +kernel)

theorem lookup_in_root_ignores_struct : ∃ fs, mount strayEntryImage zeroed = .ok fs ∧
    LookupIgnoresStruct Layout.sample strayEntryImage fs bootMemory zeroed 2 nameX := by
  obtain ⟨fs, hm, hi, hcount, -⟩ := mount_strayEntryImage
  have hiff := results_ignore_structs_iff hm Layout.sample bootMemory zeroed 2 nameX nameX
    ⟨fun _ => 0, 2, []⟩ ⟨[], []⟩
  have hroot : FitsStruct fs strayEntryImage 2 := ⟨⟨by decide, by omega⟩, .inl (by omega)⟩
  exact ⟨fs, hm, hiff.2.1 ⟨by omega, hroot⟩⟩

/-- Inode 100 is not in the table, and `x/x` is what is left in the struct. -/
theorem resolve_shows_stale_struct : ∃ fs, mount strayEntryImage zeroed = .ok fs ∧
    ¬ ResolveIgnoresStructs Layout.sample strayEntryImage fs bootMemory zeroed pathXX := by
  obtain ⟨fs, hm, -, -, hzero, hstale⟩ := mount_strayEntryImage
  refine ⟨fs, hm, fun h => ?_⟩
  have hsame := (h (fun _ => zeroed) (fun _ => staleDirectory)).same
  rw [hzero, hstale] at hsame
  cases hsame

end KernelCustom
