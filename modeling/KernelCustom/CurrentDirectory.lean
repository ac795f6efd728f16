import KernelCustom.PathWalk
import KernelCustom.ScanHeap

namespace KernelCustom
open Word32 ByteStore CString BlockTiling EarlyExit
set_option autoImplicit true

/-- A tree of directories on a drive, seen from its root, inode 2. A name holds no slash and at
most 31 bytes, `.` is the directory itself and `..` its parent, and any other name that leads to a
directory leads to a child. -/
structure DirectoryTree (fs : FileSystem) (disk : Disk) where
  dirs : Nat → Prop
  entries : Nat → List DirEntry
  parent : Nat → Nat
  root : dirs 2
  parent_root : parent 2 = 2
  holds : ∀ d, dirs d → ∃ ino, DirectoryReads fs disk d ino (entries d)
  names : ∀ d, dirs d → ∀ e ∈ entries d, e.live = true → slash ∉ e.name ∧ e.name.length ≤ 31
  self : ∀ d, dirs d → ∀ e ∈ entries d, e.live = true → e.name = dot.chars → e.inode = d
  up : ∀ d, dirs d → ∀ e ∈ entries d, e.live = true → e.name = dotDot.chars → e.inode = parent d
  child : ∀ d, dirs d → ∀ e ∈ entries d, e.live = true → e.name ≠ dot.chars →
    e.name ≠ dotDot.chars → e.inode ≤ fs.gSb.inodesCount ∧
      ∃ ino, readInode fs disk e.inode zeroed = .ok ino ∧
        (isDirectory ino = true → dirs e.inode ∧ parent e.inode = d)

/-- The blocks of all directories of the tree are in reach. -/
def DirectoryTree.InReach (tree : DirectoryTree fs disk) : Prop :=
  ∀ d, tree.dirs d → DirectoryInReach fs disk d

/-- The names of a path, each behind a slash. -/
def joined (names : List Text) : List UInt8 := names.flatMap fun name => slash :: name.chars

/-- The path of the directory that the names lead to from the root. -/
def pathOf (names : List Text) : List UInt8 := if names = [] then [slash] else joined names

/-- A name that `resolve_path` takes in one piece. -/
def PlainName (name : Text) : Prop :=
  name.chars ≠ [] ∧ slash ∉ name.chars ∧ name.chars.length ≤ 31

theorem joined_cons (name : Text) (names : List Text) :
    joined (name :: names) = slash :: (name.chars ++ joined names) := rfl

theorem joined_concat (names : List Text) (name : Text) :
    joined (names ++ [name]) = joined names ++ slash :: name.chars := by
  rw [joined, List.flatMap_append, List.flatMap_singleton]
  rfl

theorem pathOf_concat (names : List Text) (name : Text) :
    pathOf (names ++ [name]) = joined (names ++ [name]) := by
  rw [pathOf, if_neg (List.append_ne_nil_of_right_ne_nil _ (List.cons_ne_nil _ _))]

theorem cutName_append (hname : slash ∉ name) (hlen : name.length ≤ 31)
    (hrest : rest = [] ∨ rest.head? = some slash) : cutName (name ++ rest) = (name, rest.tail) := by
  have hstop : rest.takeWhile (· ≠ slash) = [] := by
    cases rest with
    | nil => rfl
    | cons c rest =>
      rcases hrest with hrest | hrest
      · cases hrest
      · cases hrest
        rfl
  have htake : (name ++ rest).takeWhile (· ≠ slash) = name := by
    rw [List.takeWhile_append_of_pos, hstop, List.append_nil]
    intro c hc
    exact decide_eq_true fun h => hname (h ▸ hc)
  simp only [cutName, htake, List.take_of_length_le hlen, List.drop_left]
  rcases hrest with rfl | hrest
  · rfl
  · rw [if_pos hrest]

theorem joined_head (names : List Text) :
    joined names = [] ∨ (joined names).head? = some slash := by
  cases names with
  | nil => exact .inl rfl
  | cons name names => exact .inr rfl

theorem inodeNamed_found (h : inodeNamed es name ≠ 0) :
    ∃ e ∈ es, e.live = true ∧ e.name = name.chars ∧ e.inode = inodeNamed es name := by
  rw [inodeNamed] at h
  cases hf : (es.filter DirEntry.live).find? (fun e => e.name = name.chars) with
  | none =>
    rw [hf] at h
    exact absurd rfl h
  | some e =>
    obtain ⟨hmem, hlive⟩ := List.mem_filter.1 (List.mem_of_find?_eq_some hf)
    have hname := List.find?_some hf
    refine ⟨e, hmem, hlive, of_decide_eq_true hname, ?_⟩
    rw [inodeNamed, hf]
    rfl

section
variable {fs : FileSystem} {disk : Disk} (tree : DirectoryTree fs disk)

/-- What the finders see of each directory of the tree as long as the heap keeps its block list. -/
structure Seen (L : Layout) (bs : List Block) (seen : Nat → List DirEntry) : Prop where
  sub : ∀ d, tree.dirs d → ∀ e ∈ seen d, e ∈ tree.entries d
  find : ∀ d, tree.dirs d → ∀ heap, HeapRep L heap bs → ∀ blockBuf inode name,
    ∃ st, findInodeInDir L disk heap blockBuf inode fs d name = .ok st ∧
      st.result = inodeNamed (seen d) name ∧ HeapRep L st.heap bs
  lookup : ∀ d, tree.dirs d → ∀ heap, HeapRep L heap bs → ∀ blockBuf inode name,
    ∃ st, ext2Lookup L disk heap blockBuf inode fs d name = .ok st ∧
      st.result = inodeNamed (seen d) name ∧ HeapRep L st.heap bs

variable (seen : Nat → List DirEntry)

/-- A name leads from a directory to one of its children. -/
structure Enters (d : Nat) (name : Text) (e : Nat) : Prop where
  dir : tree.dirs d
  found : inodeNamed (seen d) name = e
  nonzero : e ≠ 0
  child : tree.dirs e ∧ tree.parent e = d
  plain : PlainName name

/-- Names lead down from one directory to another. -/
inductive Descends : Nat → List Text → Nat → Prop
  | nil : Descends d [] d
  | cons : Enters tree seen d name e → Descends e names f → Descends d (name :: names) f

end

section
variable {fs : FileSystem} {disk : Disk} {tree : DirectoryTree fs disk}
  {seen : Nat → List DirEntry}

theorem Descends.concat (h : Descends tree seen d names e) (he : Enters tree seen e name f) :
    Descends tree seen d (names ++ [name]) f := by
  induction h with
  | nil => exact .cons he .nil
  | cons hd _ ih => exact .cons hd (ih he)

theorem Descends.last (h : Descends tree seen d (names ++ [name]) f) :
    ∃ e, Descends tree seen d names e ∧ Enters tree seen e name f := by
  induction names generalizing d with
  | nil =>
    cases h with
    | cons hd h =>
      cases h
      exact ⟨d, .nil, hd⟩
  | cons x names ih =>
    cases h with
    | cons hd h =>
      obtain ⟨e, hdown, he⟩ := ih h
      exact ⟨e, .cons hd hdown, he⟩

theorem Descends.dirs (h : Descends tree seen d names e) (hd : tree.dirs d) : tree.dirs e := by
  induction h with
  | nil => exact hd
  | cons he _ ih => exact ih he.child.1

/-- The loop of `resolve_path` follows the names. -/
theorem resolveNames_descends (hs : Seen tree L bs seen) (h : Descends tree seen d names e)
    (hrep : HeapRep L w.heap bs) (hw : w.currentInode = d) (hfuel : names.length < fuel)
    (stack : Nat → Mem) :
    ∃ w', resolveNames L disk fs fuel stack (joined names).tail w = .ok w' ∧
      w'.currentInode = e := by
  induction h generalizing fuel stack w with
  | nil =>
    cases fuel with
    | zero => omega
    | succ fuel => exact ⟨w, rfl, hw⟩
  | @cons d name e names f he hdown ih =>
    cases fuel with
    | zero => omega
    | succ fuel =>
      obtain ⟨hne, hslash, hlen⟩ := he.plain
      have hcut := cutName_append hslash hlen (joined_head names)
      obtain ⟨st, hfind, hres, hheap⟩ := hs.find d he.dir w.heap hrep w.blockBuf (stack 0) name
      have hnil : name.chars ++ joined names ≠ [] := List.append_ne_nil_of_left_ne_nil hne _
      have hst : st.result ≠ 0 := by
        rw [hres, he.found]
        exact he.nonzero
      rw [joined_cons, List.tail_cons, resolveNames, if_neg hnil, hcut]
      dsimp only
      rw [Text.ofBytes_self, hw, hfind]
      simp only [bind, Except.bind, if_neg hst]
      exact ih hheap (hres.trans he.found) (by rw [List.length_cons] at hfuel; omega) _

end

/-- Writing a string behind the bytes with which an array begins. -/
theorem Cwd.write_spells {cwd : Cwd} (h : Begins cwd.gCwdPath t) (hnul : 0 ∉ t ++ l)
    (hlen : (t ++ l).length < 4294967296) :
    Spells (cwd.write t.length l).gCwdPath (t ++ l) := by
  induction l generalizing cwd t with
  | nil =>
    rw [List.append_nil] at hnul hlen ⊢
    refine ⟨?_, Function.update_self _ _ _, hnul, hlen⟩
    intro i hi
    exact (Function.update_of_ne (by omega) _ _).trans (h i hi)
  | cons c l ih =>
    have hstep : Begins (cwd.store t.length c).gCwdPath (t ++ [c]) := by
      intro i hi
      rw [List.length_append, List.length_singleton] at hi
      change Function.update cwd.gCwdPath (t.length : Int) c i = _
      by_cases hlast : i = t.length
      · rw [hlast, Function.update_self, List.getD_append_right _ _ _ _ (Nat.le_refl _),
          Nat.sub_self]
        rfl
      · rw [Function.update_of_ne (by omega), h i (by omega), List.getD_append _ _ _ _ (by omega)]
    have happ : t ++ c :: l = t ++ [c] ++ l := List.append_cons t c l
    rw [happ] at hnul hlen ⊢
    have hspell := ih hstep hnul hlen
    rw [List.length_append, List.length_singleton, Nat.cast_add, Nat.cast_one] at hspell
    exact hspell

/-- Cutting a string. -/
theorem Cwd.store_spells {cwd : Cwd} (h : Spells cwd.gCwdPath (t ++ l)) :
    Spells (cwd.store t.length 0).gCwdPath t := by
  have hlen := h.short
  rw [List.length_append] at hlen
  have hnul : 0 ∉ t ++ [] := by
    rw [List.append_nil]
    exact fun hm => h.no_nul (List.mem_append_left _ hm)
  have hspell := Cwd.write_spells h.begins.append_left hnul (by rw [List.append_nil]; omega)
  rw [List.append_nil] at hspell
  exact hspell

/-- `last_slash` is the index of the last slash. -/
theorem lastSlash_eq {a : Int → UInt8} {k n : Nat} (hk : k < n) (hslash : a k = slash)
    (hafter : ∀ i : Nat, k < i → i < n → a i ≠ slash) : lastSlash a n = k := by
  induction n with
  | zero => omega
  | succ n ih =>
    rw [lastSlash]
    by_cases hn : k = n
    · subst hn
      rw [if_pos hslash]
    · rw [if_neg (hafter n (by omega) (by omega))]
      exact ih (by omega) fun i hi hi' => hafter i hi (by omega)

theorem Spells.lastSlash_eq {a : Int → UInt8} (h : Spells a (t ++ slash :: name))
    (hname : slash ∉ name) : lastSlash a (arrayLength a) = t.length := by
  rw [h.length, List.length_append, List.length_cons]
  apply KernelCustom.lastSlash_eq (by omega)
  · rw [h.begins _ (by rw [List.length_append, List.length_cons]; omega),
      List.getD_append_right _ _ _ _ (Nat.le_refl _), Nat.sub_self]
    rfl
  · intro i hl hu
    have hi : i - t.length - 1 < name.length := by omega
    have hsucc : i - t.length = i - t.length - 1 + 1 := by omega
    rw [h.begins _ (by rw [List.length_append, List.length_cons]; omega),
      List.getD_append_right _ _ _ _ (by omega), hsucc, List.getD_cons_succ,
      List.getD_eq_getElem _ _ hi]
    exact fun heq => hname (heq ▸ List.getElem_mem hi)

theorem Cwd.ascend_root {cwd : Cwd} (h : Spells cwd.gCwdPath [slash]) : cwd.ascend = cwd := by
  have hroot : Spells cwd.gCwdPath ([] ++ slash :: []) := h
  have hlast := Spells.lastSlash_eq hroot List.not_mem_nil
  rw [h.length] at hlast
  simp only [Cwd.ascend, h.length, hlast]
  rfl

theorem Cwd.ascend_spells {cwd : Cwd} (hname : PlainName name)
    (h : Spells cwd.gCwdPath (joined (names ++ [name]))) :
    Spells cwd.ascend.gCwdPath (pathOf names) := by
  rw [joined_concat] at h
  obtain ⟨hne, hslash, -⟩ := hname
  have hlast := Spells.lastSlash_eq h hslash
  have hlen := h.length
  rw [List.length_append, List.length_cons] at hlen
  have hpos := List.length_pos_iff.2 hne
  rw [hlen] at hlast
  simp only [Cwd.ascend, hlen, hlast]
  cases names with
  | nil =>
    have hcut : [] ++ slash :: name.chars = [slash] ++ name.chars := rfl
    rw [show joined [] = [] from rfl, hcut] at h
    rw [show joined [] = [] from rfl, List.length_nil, if_neg (by decide),
      if_pos ⟨rfl, by omega⟩]
    exact Cwd.store_spells h
  | cons x names =>
    rw [if_pos (by rw [joined_cons, List.length_cons]; omega), pathOf,
      if_neg (List.cons_ne_nil _ _)]
    exact Cwd.store_spells h

theorem Cwd.descend_spells {cwd : Cwd} (h : Spells cwd.gCwdPath (pathOf names))
    (hplain : ∀ x ∈ names, x.chars ≠ []) (hlen : (pathOf names).length ≤ 127)
    (hname : PlainName name) : Spells (cwd.descend name).gCwdPath (pathOf (names ++ [name])) := by
  obtain ⟨hne, -, hshort⟩ := hname
  have hlength := h.length
  rw [pathOf_concat, joined_concat]
  simp only [Cwd.descend, hlength]
  cases names with
  | nil =>
    have hslash : cwd.gCwdPath 0 = slash := h.begins 0 (by decide)
    rw [if_pos ⟨rfl, hslash⟩]
    apply Cwd.write_spells (t := [slash]) h.begins
    · intro hm
      rcases List.mem_cons.1 hm with hm | hm
      · cases hm
      · exact name.no_nul hm
    · simp only [List.singleton_append, List.length_cons]
      omega
  | cons x names =>
    rw [pathOf, if_neg (List.cons_ne_nil _ _)] at h hlen ⊢
    have hx := List.length_pos_iff.2 (hplain x List.mem_cons_self)
    have htwo : (joined (x :: names)).length ≠ 1 := by
      rw [joined_cons, List.length_cons, List.length_append]
      omega
    rw [if_neg fun hc => htwo hc.1]
    apply Cwd.write_spells (l := slash :: name.chars) h.begins
    · intro hm
      rcases List.mem_append.1 hm with hm | hm
      · exact h.no_nul hm
      · rcases List.mem_cons.1 hm with hm | hm
        · cases hm
        · exact name.no_nul hm
    · rw [List.length_append, List.length_cons]
      omega

/-- What a call of `ext2_cd` does to the current directory: nothing, or it has found a directory and
printed nothing on the screen. -/
theorem ext2Cd_cases
    (h : ext2Cd L disk heap dirBlockBuf lookupInode fs cwd path inode out = .ok r) :
    r.cwd = cwd ∨ ∃ st ino,
      ext2Lookup L disk heap dirBlockBuf lookupInode fs cwd.internalId path = .ok st ∧
      st.result ≠ 0 ∧ readLocalInode fs disk st.result inode = .ok ino ∧ isDirectory ino = true ∧
      r.cwd = { cwd.edit path with internalId := st.result } ∧ r.out.vga = out.vga := by
  rw [ext2Cd] at h
  split at h
  · cases h
    exact .inl rfl
  obtain ⟨st, hst, h⟩ := bind_ok h
  dsimp only at h
  split at h
  · cases h
    exact .inl rfl
  next hne =>
  obtain ⟨ino, hino, h⟩ := bind_ok h
  split at h
  · next hdir =>
    cases h
    exact .inr ⟨st, ino, hst, hne, hino, hdir, rfl, rfl⟩
  · cases h
    exact .inl rfl

theorem ext2Cd_reads {cwd : Cwd} (hnil : path.chars ≠ [])
    (hlook : ext2Lookup L disk heap dirBlockBuf lookupInode fs cwd.internalId path = .ok st)
    (hne : st.result ≠ 0)
    (h : ext2Cd L disk heap dirBlockBuf lookupInode fs cwd path inode out = .ok r) :
    ∃ ino, readLocalInode fs disk st.result inode = .ok ino := by
  rw [ext2Cd, if_neg hnil, hlook] at h
  simp only [bind, Except.bind, if_neg hne] at h
  obtain ⟨ino, hread, -⟩ := bind_ok h
  exact ⟨ino, hread⟩

/-- A call that finds a directory edits the path and moves there. -/
theorem ext2Cd_found {cwd : Cwd} (hnil : path.chars ≠ [])
    (hlook : ext2Lookup L disk heap dirBlockBuf lookupInode fs cwd.internalId path = .ok st)
    (hne : st.result ≠ 0) (hread : readLocalInode fs disk st.result inode = .ok ino)
    (hdir : isDirectory ino = true) (out : Console) :
    ∃ out', ext2Cd L disk heap dirBlockBuf lookupInode fs cwd path inode out =
      .ok ⟨st.heap, st.blockBuf, { cwd.edit path with internalId := st.result }, out'⟩ := by
  rw [ext2Cd, if_neg hnil, hlook]
  simp only [bind, Except.bind, if_neg hne, hread, if_pos hdir]
  exact ⟨_, rfl⟩

section
variable {fs : FileSystem} {disk : Disk} {tree : DirectoryTree fs disk}
  {seen : Nat → List DirEntry}

/-- The path spells names that lead from the root to the current directory. -/
def Cwd.Shows (tree : DirectoryTree fs disk) (seen : Nat → List DirEntry) (cwd : Cwd) : Prop :=
  ∃ names, Descends tree seen 2 names cwd.internalId ∧ Spells cwd.gCwdPath (pathOf names) ∧
    (pathOf names).length ≤ 127

theorem Descends.plain (h : Descends tree seen d names e) : ∀ x ∈ names, PlainName x := by
  induction h with
  | nil => exact fun x hx => absurd hx List.not_mem_nil
  | cons he _ ih =>
    intro x hx
    rcases List.mem_cons.1 hx with rfl | hx
    · exact he.plain
    · exact ih x hx

theorem DirectoryTree.read (hi : fs.gInodeSize ≤ 128) (hd : tree.dirs d) (inode : Mem) :
    ∃ ino, readLocalInode fs disk d inode = .ok ino ∧ isDirectory ino = true := by
  obtain ⟨ino, h⟩ := tree.holds d hd
  obtain ⟨ino', hread, hsame⟩ := readInode_congr h.number h.read inode
  refine ⟨ino', (readLocalInode_of_fits hi disk d inode).trans hread, ?_⟩
  have hsize := h.inode_size
  rw [isDirectory, hsame.load16 (by omega) (by omega)]
  exact h.directory

theorem Cwd.edit_dot (cwd : Cwd) (h : path.chars = dot.chars) : cwd.edit path = cwd := by
  rw [Cwd.edit, if_pos ((strcmp_eq_zero_iff _ _).2 h)]

theorem Cwd.edit_dotDot (cwd : Cwd) (h : path.chars = dotDot.chars) :
    cwd.edit path = cwd.ascend := by
  have hdot : ¬ strcmp path dot = 0 := by
    rw [strcmp_eq_zero_iff, h]
    decide
  rw [Cwd.edit, if_neg hdot, if_pos ((strcmp_eq_zero_iff _ _).2 h)]

theorem Cwd.edit_name (cwd : Cwd) (h : path.chars ≠ dot.chars) (h' : path.chars ≠ dotDot.chars) :
    cwd.edit path = cwd.descend path := by
  rw [Cwd.edit, if_neg (mt (strcmp_eq_zero_iff _ _).1 h), if_neg (mt (strcmp_eq_zero_iff _ _).1 h')]

/-- `..` moves the inode and the path to the parent. -/
theorem Cwd.Shows.ascend {cwd : Cwd} (h : cwd.Shows tree seen) :
    Cwd.Shows tree seen { cwd.ascend with internalId := tree.parent cwd.internalId } ∧
      tree.dirs (tree.parent cwd.internalId) := by
  obtain ⟨names, hdown, hspell, hlen⟩ := h
  rcases List.eq_nil_or_concat' names with rfl | ⟨names, name, rfl⟩
  · generalize hid : cwd.internalId = d at hdown
    cases hdown
    rw [tree.parent_root, Cwd.ascend_root hspell]
    exact ⟨⟨[], .nil, hspell, hlen⟩, tree.root⟩
  · obtain ⟨e, hdown, he⟩ := hdown.last
    have hparent := he.child.2
    rw [hparent]
    rw [pathOf_concat] at hspell hlen
    refine ⟨⟨names, hdown, Cwd.ascend_spells he.plain hspell, ?_⟩, he.dir⟩
    rw [joined_concat, List.length_append, List.length_cons] at hlen
    rw [pathOf]
    split
    · decide
    · omega

/-- A name that leads to a child moves the inode and the path down. -/
theorem Cwd.Shows.descend {cwd : Cwd} (h : cwd.Shows tree seen)
    (he : Enters tree seen cwd.internalId path e)
    (hlen : arrayLength (cwd.descend path).gCwdPath ≤ 127) :
    Cwd.Shows tree seen { cwd.descend path with internalId := e } := by
  obtain ⟨names, hdown, hspell, hshort⟩ := h
  have hname : ∀ x ∈ names, x.chars ≠ [] := fun x hx => (hdown.plain x hx).1
  have hnew := Cwd.descend_spells hspell hname hshort he.plain
  rw [hnew.length] at hlen
  exact ⟨names ++ [path], hdown.concat he, hnew, hlen⟩

/-- A call that finds a directory: only the new path has to be looked at. -/
theorem ext2Cd_moves {cwd : Cwd} (hnil : path.chars ≠ [])
    (hlook : ext2Lookup L disk heap dirBlockBuf lookupInode fs cwd.internalId path = .ok st)
    (hne : st.result ≠ 0) (hheap : HeapRep L st.heap bs)
    (hread : readLocalInode fs disk st.result inode = .ok ino) (hdir : isDirectory ino = true)
    (hshows : arrayLength (cwd.edit path).gCwdPath ≤ 127 →
      Cwd.Shows tree seen { cwd.edit path with internalId := st.result }) (out : Console) :
    ∃ r, ext2Cd L disk heap dirBlockBuf lookupInode fs cwd path inode out = .ok r ∧
      HeapRep L r.heap bs ∧ (arrayLength r.cwd.gCwdPath ≤ 127 → r.cwd.Shows tree seen) := by
  obtain ⟨out', hcall⟩ := ext2Cd_found hnil hlook hne hread hdir out
  exact ⟨_, hcall, hheap, hshows⟩

/-- One call: it comes back, the heap is as it was, and the path follows the inode. -/
theorem ext2Cd_step {cwd : Cwd} (hi : fs.gInodeSize ≤ 128) (hs : Seen tree L bs seen)
    (h : cwd.Shows tree seen) (hrep : HeapRep L heap bs) (dirBlockBuf lookupInode : Mem)
    (path : Text) (inode : Mem) (out : Console) :
    ∃ r, ext2Cd L disk heap dirBlockBuf lookupInode fs cwd path inode out = .ok r ∧
      HeapRep L r.heap bs ∧ (arrayLength r.cwd.gCwdPath ≤ 127 → r.cwd.Shows tree seen) := by
  by_cases hnil : path.chars = []
  · rw [ext2Cd, if_pos hnil]
    exact ⟨_, rfl, hrep, fun _ => h⟩
  have hdir : tree.dirs cwd.internalId := by
    obtain ⟨names, hdown, -⟩ := h
    exact hdown.dirs tree.root
  obtain ⟨st, hlook, hres, hheap⟩ :=
    hs.lookup cwd.internalId hdir heap hrep dirBlockBuf lookupInode path
  by_cases hzero : st.result = 0
  · rw [ext2Cd, if_neg hnil, hlook]
    simp only [bind, Except.bind, if_pos hzero]
    exact ⟨_, rfl, hheap, fun _ => h⟩
  obtain ⟨e, he, hlive, hname, hinode⟩ := inodeNamed_found (hres ▸ hzero)
  rw [← hres] at hinode
  have hmem := hs.sub cwd.internalId hdir e he
  by_cases hdot : path.chars = dot.chars
  · have hself := tree.self cwd.internalId hdir e hmem hlive (hname.trans hdot)
    rw [hinode] at hself
    obtain ⟨ino, hread, hd⟩ := tree.read hi hdir inode
    rw [← hself] at hread
    refine ext2Cd_moves hnil hlook hzero hheap hread hd (fun _ => ?_) out
    rw [Cwd.edit_dot cwd hdot, hself]
    exact h
  by_cases hup : path.chars = dotDot.chars
  · have hparent := tree.up cwd.internalId hdir e hmem hlive (hname.trans hup)
    rw [hinode] at hparent
    obtain ⟨hshows, hdir'⟩ := h.ascend
    obtain ⟨ino, hread, hd⟩ := tree.read hi hdir' inode
    rw [← hparent] at hread
    refine ext2Cd_moves hnil hlook hzero hheap hread hd (fun _ => ?_) out
    rw [Cwd.edit_dotDot cwd hup, hparent]
    exact hshows
  · obtain ⟨hcount, ino₀, hread₀, hchild⟩ :=
      tree.child cwd.internalId hdir e hmem hlive (hname ▸ hdot) (hname ▸ hup)
    rw [hinode] at hcount hread₀ hchild
    obtain ⟨ino, hread, hsame⟩ := readInode_congr ⟨by omega, hcount⟩ hread₀ inode
    rw [← readLocalInode_of_fits hi] at hread
    have hmode : isDirectory ino = isDirectory ino₀ := by
      obtain ⟨_, hd⟩ := tree.holds _ hdir
      have hsize := hd.inode_size
      rw [isDirectory, isDirectory, hsame.load16 (by omega) (by omega)]
    by_cases hd : isDirectory ino = true
    · obtain ⟨hslash, hlen⟩ := tree.names cwd.internalId hdir e hmem hlive
      have henters : Enters tree seen cwd.internalId path st.result :=
        ⟨hdir, hres.symm, hzero, hchild (hmode ▸ hd), hnil, hname ▸ hslash, hname ▸ hlen⟩
      refine ext2Cd_moves hnil hlook hzero hheap hread hd (fun hshort => ?_) out
      rw [Cwd.edit_name cwd hdot hup] at hshort ⊢
      exact h.descend henters hshort
    · rw [ext2Cd, if_neg hnil, hlook]
      simp only [bind, Except.bind, if_neg hzero, hread, if_neg hd]
      exact ⟨_, rfl, hheap, fun _ => h⟩

end

/-- The string in `g_cwd_path`. -/
def Cwd.text (cwd : Cwd) : Text := .ofBytes (arrayText cwd.gCwdPath)

theorem joined_length (h : ∀ x ∈ names, PlainName x) :
    2 * names.length ≤ (joined names).length := by
  induction names with
  | nil => exact Nat.le_refl 0
  | cons name names ih =>
    have hname := List.length_pos_iff.2 (h name List.mem_cons_self).1
    have hrest := ih fun x hx => h x (List.mem_cons_of_mem _ hx)
    rw [joined_cons, List.length_cons, List.length_cons, List.length_append]
    omega

section
variable {fs : FileSystem} {disk : Disk} {tree : DirectoryTree fs disk}
  {seen : Nat → List DirEntry}

/-- `resolve_path` of a path that shows the current directory. -/
theorem Cwd.Shows.resolve {cwd : Cwd} (h : cwd.Shows tree seen) (hs : Seen tree L bs seen)
    (hrep : HeapRep L heap bs) (blockBuf : Mem) (stack : Nat → Mem) :
    ∃ w, resolvePath L disk fs heap blockBuf stack cwd.text = .ok w ∧
      w.currentInode = cwd.internalId := by
  obtain ⟨names, hdown, hspell, -⟩ := h
  have htext : cwd.text.chars = pathOf names := by
    rw [Cwd.text, hspell.text, Text.ofBytes_chars hspell.no_nul]
  cases names with
  | nil =>
    have hcmp : strcmp cwd.text ⟨[slash], by decide⟩ = 0 := (strcmp_eq_zero_iff _ _).2 htext
    have hnil : cwd.text.chars ≠ [] := by
      rw [htext]
      exact List.cons_ne_nil _ _
    generalize hid : cwd.internalId = d at hdown ⊢
    cases hdown
    rw [resolvePath, if_neg hnil, if_pos hcmp]
    exact ⟨_, rfl, rfl⟩
  | cons name names =>
    have hlen := joined_length hdown.plain
    rw [pathOf, if_neg (List.cons_ne_nil _ _)] at htext
    rw [List.length_cons] at hlen
    have hroot : cwd.text.chars ≠ [slash] := by
      intro heq
      rw [← htext, heq, List.length_singleton] at hlen
      omega
    have hnil : cwd.text.chars ≠ [] := by
      rw [htext, joined_cons]
      exact List.cons_ne_nil _ _
    have hhead : (joined (name :: names)).head? = some slash := rfl
    rw [resolvePath_loop hroot, if_neg hnil, htext]
    simp only [if_pos hhead]
    apply resolveNames_descends hs hdown hrep rfl
    rw [List.length_tail, List.length_cons]
    omega

end

/-- Calls of `ext2_cd` one after the other, with any arguments and any contents of the structs, in
which the path stays within 127 bytes. -/
inductive CdCalls (L : Layout) (disk : Disk) (fs : FileSystem) (s : CdRun) : CdRun → Prop
  | none : CdCalls L disk fs s s
  | call {s' s'' : CdRun} {lookupInode inode : Mem} {path : Text} : CdCalls L disk fs s s' →
      ext2Cd L disk s'.heap s'.dirBlockBuf lookupInode fs s'.cwd path inode s'.out = .ok s'' →
      arrayLength s''.cwd.gCwdPath ≤ 127 → CdCalls L disk fs s s''

theorem CdCalls.shows {tree : DirectoryTree fs disk} (h : CdCalls L disk fs s s')
    (hi : fs.gInodeSize ≤ 128) (hs : Seen tree L bs seen) (hrep : HeapRep L s.heap bs)
    (hshow : s.cwd.Shows tree seen) :
    HeapRep L s'.heap bs ∧ s'.cwd.Shows tree seen := by
  induction h with
  | none => exact ⟨hrep, hshow⟩
  | @call s' s'' lookupInode inode path _ hcall hlen ih =>
    obtain ⟨hrep', hshow'⟩ := ih
    obtain ⟨r, hr, hheap, hcwd⟩ :=
      ext2Cd_step hi hs hshow' hrep' s'.dirBlockBuf lookupInode path inode s'.out
    rw [hcall] at hr
    cases hr
    exact ⟨hheap, hcwd hlen⟩

def nameD : Text := ⟨[0x64], by decide⟩

/-- A raw image with 1 KiB blocks: the root directory in block 8 with `.`, `..` and `d`, and the
directory `d`, inode 11, in block 9 with `.` and `..`. -/
def nestedImage : Disk := sparseDisk
  [(1024, 16), (1044, 1), (1064, 16), (1080, 0x53), (1081, 0xEF), (2056, 5),
    (5248, 0xED), (5249, 0x41), (5253, 4), (5288, 8),
    (6400, 0xED), (6401, 0x41), (6405, 4), (6440, 9),
    (8192, 2), (8196, 12), (8198, 1), (8199, 2), (8200, 0x2E),
    (8204, 2), (8208, 12), (8210, 2), (8211, 2), (8212, 0x2E), (8213, 0x2E),
    (8216, 11), (8220, 0xE8), (8221, 0x03), (8222, 1), (8223, 2), (8224, 0x64),
    (9216, 11), (9220, 12), (9222, 1), (9223, 2), (9224, 0x2E),
    (9228, 2), (9232, 0xF4), (9233, 0x03), (9234, 2), (9235, 2), (9236, 0x2E), (9237, 0x2E)]

def nestedFs : FileSystem where
  ext2StartLba := 0
  gBlockSize := 1024
  gInodeSize := 128
  gInodesPerBlock := 8
  gSb := ⟨16, 1, 0, 16, 0xEF53, 0, 0⟩
  fsGdt := diskRead nestedImage 4 zeroed 0 2

/-- The shell as it starts: at the root, with the heap of `heap_init`. -/
def rootShell : CdRun :=
  ⟨heapInit Layout.sample bootMemory, zeroed, ⟨fun i => if i = 0 then slash else 0, 2, []⟩,
    ⟨[], []⟩⟩

theorem rootShell_path : Spells rootShell.cwd.gCwdPath [slash] := by
  refine ⟨?_, rfl, by decide, by decide⟩
  intro i hi
  obtain rfl : i = 0 := by
    rw [List.length_singleton] at hi
    omega
  rfl

end KernelCustom
