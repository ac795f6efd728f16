import KernelCustom.CurrentDirectory

namespace KernelCustom
open Word32 ByteStore CString BlockTiling
set_option autoImplicit true

/-- What looks a name up in a directory: it may change a state, it may not come back, and 0 says
that the name is not there. -/
abbrev Finder (σ : Type) := σ → Nat → Text → Except Stuck (σ × Nat)

section
variable {σ : Type} (find : Finder σ)

/-- The loop of `resolve_path` over any finder. -/
def resolveNamesBy : Nat → List UInt8 → σ → Nat → Except Stuck (σ × Nat)
  | 0, _, _, _ => .error .hang
  | fuel + 1, path, s, currentInode =>
    if path = [] then .ok (s, currentInode)
    else do
      let (name, path) := cutName path
      let (s, currentInode) ← find s currentInode (.ofBytes name)
      if currentInode = 0 then .ok (s, 0) else resolveNamesBy fuel path s currentInode

/-- `resolve_path` over any finder. -/
def resolvePathBy (s : σ) (path : Text) : Except Stuck (σ × Nat) :=
  if path.chars = [] then .ok (s, 0)
  else if strcmp path (.ofBytes [slash]) = 0 then .ok (s, 2)
  else
    let path := if path.chars.head? = some slash then path.chars.tail else path.chars
    resolveNamesBy find (path.length + 1) path s 2

/-- The components looked up one after the other, up to the first that is not there. -/
def lookupEach : List Text → σ → Nat → Except Stuck (σ × Nat)
  | [], s, currentInode => .ok (s, currentInode)
  | name :: names, s, currentInode => do
    let (s, currentInode) ← find s currentInode name
    if currentInode = 0 then .ok (s, 0) else lookupEach names s currentInode

end

/-- The state that the calls of `find_inode_in_dir` share. -/
structure FindState where
  heap : MemoryState
  blockBuf : Mem
  stack : Nat → Mem
  searched : List Nat

/-- `find_inode_in_dir` on a drive. -/
def driveFind (L : Layout) (disk : Disk) (fs : FileSystem) : Finder FindState :=
  fun s parentInode name => do
    let r ← findInodeInDir L disk s.heap s.blockBuf (s.stack 0) fs parentInode name
    .ok (⟨r.heap, r.blockBuf, fun k => s.stack (k + 1), s.searched ++ [parentInode]⟩, r.result)

/-- What `resolve_path` keeps of the shared state. -/
def FindState.walk (r : FindState × Nat) : Walk := ⟨r.1.heap, r.1.blockBuf, r.2, r.1.searched⟩

/-- A lookup in a tree, given by the entries of each of its directories. -/
def treeFind (tree : Nat → List DirEntry) : Finder Unit :=
  fun s parentInode name => .ok (s, inodeNamed (tree parentInode) name)

/-- A path of non-empty components of at most 255 bytes with single slashes between them, perhaps
one in front and perhaps one behind. Only the root has no component. -/
structure PathOf (path : Text) (names : List Text) : Prop where
  name_pos : ∀ name ∈ names, name.chars ≠ []
  no_slash : ∀ name ∈ names, slash ∉ name.chars
  name_le : ∀ name ∈ names, name.chars.length ≤ 255
  not_empty : path.chars ≠ []
  spelled : ∃ trail, (trail = [] ∨ trail = [slash]) ∧
    (path.chars = joined names ++ trail ∨ path.chars = (joined names).tail ++ trail)

/-- In every directory tree, `resolve_path` gives what the components lead to. -/
def IteratesInTrees (path : Text) (names : List Text) : Prop :=
  ∀ tree, resolvePathBy (treeFind tree) () path = lookupEach (treeFind tree) names () 2

/-- On every drive, `resolve_path` makes the lookups of the components and no other. -/
def IteratesOnDrives (path : Text) (names : List Text) : Prop :=
  ∀ L disk fs heap blockBuf stack, resolvePath L disk fs heap blockBuf stack path =
    (lookupEach (driveFind L disk fs) names ⟨heap, blockBuf, stack, []⟩ 2).map FindState.walk

/-- A chain of directories, each with one of the components as its only entry. -/
def chainTree (names : List Text) (dir : Nat) : List DirEntry :=
  match names[dir - 2]? with
  | some name => [⟨dir + 1, 2, name.chars⟩]
  | none => []

section
variable {L : Layout} {disk : Disk} {fs : FileSystem}

theorem resolveNames_eq_by (fuel : Nat) (stack : Nat → Mem) (path : List UInt8) (w : Walk) :
    resolveNames L disk fs fuel stack path w =
      (resolveNamesBy (driveFind L disk fs) fuel path ⟨w.heap, w.blockBuf, stack, w.searched⟩
        w.currentInode).map FindState.walk := by
  induction fuel generalizing stack path w with
  | zero => rfl
  | succ fuel ih =>
    rw [resolveNames, resolveNamesBy]
    by_cases hnil : path = []
    · rw [if_pos hnil, if_pos hnil]
      rfl
    · rw [if_neg hnil, if_neg hnil]
      simp only [driveFind]
      cases findInodeInDir L disk w.heap w.blockBuf (stack 0) fs w.currentInode
          (.ofBytes (cutName path).1) with
      | error e => rfl
      | ok r =>
        simp only [bind, Except.bind]
        by_cases hzero : r.result = 0
        · rw [if_pos hzero, if_pos hzero, hzero]
          rfl
        · rw [if_neg hzero, if_neg hzero]
          exact ih _ _ _

/-- `resolve_path` is the loop over the finder of the drive. -/
theorem resolvePath_eq_by (heap : MemoryState) (blockBuf : Mem) (stack : Nat → Mem)
    (path : Text) :
    resolvePath L disk fs heap blockBuf stack path =
      (resolvePathBy (driveFind L disk fs) ⟨heap, blockBuf, stack, []⟩ path).map
        FindState.walk := by
  rw [resolvePath, resolvePathBy]
  by_cases hnil : path.chars = []
  · rw [if_pos hnil, if_pos hnil]
    rfl
  rw [if_neg hnil, if_neg hnil]
  by_cases hroot : path.chars = [slash]
  · rw [if_pos ((strcmp_eq_zero_iff _ _).2 hroot), if_pos ((strcmp_eq_zero_iff _ _).2 hroot)]
    rfl
  · rw [if_neg fun hcmp => hroot ((strcmp_eq_zero_iff _ _).1 hcmp),
      if_neg fun hcmp => hroot ((strcmp_eq_zero_iff _ _).1 hcmp)]
    exact resolveNames_eq_by _ _ _ _

end

section
variable {σ τ : Type} {find : Finder σ} {find' : Finder τ}

/-- Two finders that answer alike from related states resolve names alike. -/
theorem resolveNamesBy_sim {R : σ → τ → Nat → Prop}
    (hfind : ∀ s t d name, R s t d → ∃ s' t' e, find s d name = .ok (s', e) ∧
      find' t d name = .ok (t', e) ∧ (e ≠ 0 → R s' t' e))
    (h : R s t d) (fuel : Nat) (path : List UInt8) :
    (resolveNamesBy find fuel path s d).map Prod.snd =
      (resolveNamesBy find' fuel path t d).map Prod.snd := by
  induction fuel generalizing path s t d with
  | zero => rfl
  | succ fuel ih =>
    rw [resolveNamesBy, resolveNamesBy]
    by_cases hnil : path = []
    · rw [if_pos hnil, if_pos hnil]
      rfl
    · obtain ⟨s', t', e, hs, ht, hnext⟩ := hfind s t d (.ofBytes (cutName path).1) h
      rw [if_neg hnil, if_neg hnil]
      simp only [hs, ht, bind, Except.bind]
      by_cases hzero : e = 0
      · rw [if_pos hzero, if_pos hzero]
        rfl
      · rw [if_neg hzero, if_neg hzero]
        exact ih (hnext hzero) _

theorem resolvePathBy_sim {R : σ → τ → Nat → Prop}
    (hfind : ∀ s t d name, R s t d → ∃ s' t' e, find s d name = .ok (s', e) ∧
      find' t d name = .ok (t', e) ∧ (e ≠ 0 → R s' t' e))
    (h : R s t 2) (path : Text) :
    (resolvePathBy find s path).map Prod.snd = (resolvePathBy find' t path).map Prod.snd := by
  rw [resolvePathBy, resolvePathBy]
  split
  · rfl
  split
  · rfl
  · exact resolveNamesBy_sim hfind h _ _

end

/-- A drive holds a tree. Each of its numbers is a directory in reach of the commands, whose entries
lead to numbers of the tree, or something else that can be read and has no entries. -/
structure HoldsTree (fs : FileSystem) (disk : Disk) (nodes : Nat → Prop)
    (entries : Nat → List DirEntry) : Prop where
  root : nodes 2
  inode_size : fs.gInodeSize = 128
  reach : ∀ d, nodes d → DirectoryInReach fs disk d
  node : ∀ d, nodes d → (∃ ino, DirectoryReads fs disk d ino (entries d)) ∨
    (1 ≤ d ∧ d ≤ fs.gSb.inodesCount) ∧ entries d = [] ∧
      ∃ ino, readInode fs disk d zeroed = .ok ino ∧ isDirectory ino = false
  closed : ∀ d, nodes d → ∀ e ∈ entries d, e.live = true → nodes e.inode

section
variable {L : Layout} {disk : Disk} {fs : FileSystem} {nodes : Nat → Prop}
  {entries : Nat → List DirEntry}

/-- The entries that `find_inode_in_dir` sees of a number of the tree. -/
theorem HoldsTree.seen (ht : HoldsTree fs disk nodes entries) (L : Layout) (bs : List Block)
    (d : Nat) (hd : nodes d) :
    ∃ seen : List DirEntry, (∀ e ∈ seen, e ∈ entries d) ∧ ∀ heap, HeapRep L heap bs →
      ∀ blockBuf inode name, ∃ st, findInodeInDir L disk heap blockBuf inode fs d name = .ok st ∧
        st.result = inodeNamed seen name ∧ HeapRep L st.heap bs := by
  rcases ht.node d hd with ⟨ino, hreads⟩ | ⟨hvalid, -, ino, hread, hfile⟩
  · obtain ⟨seen, hsub, hseen⟩ := finders_seen hreads ht.inode_size.le (ht.reach d hd) L bs
    exact ⟨seen, hsub, fun heap hrep blockBuf inode name =>
      (hseen heap hrep blockBuf inode name).1⟩
  · refine ⟨[], fun _ he => absurd he List.not_mem_nil, fun heap hrep blockBuf inode name => ?_⟩
    obtain ⟨ino', hread', hsame⟩ := readInode_congr hvalid hread inode
    have hsize := ht.inode_size
    have hfile' : isDirectory ino' = false := by
      rw [isDirectory, hsame.load16 (by omega) (by omega)]
      exact hfile
    refine ⟨⟨heap, blockBuf, 0, 0⟩, ?_, rfl, hrep⟩
    rw [findInodeInDir, readLocalInode_of_fits hsize.le, hread']
    simp only [bind, Except.bind, hfile', Bool.false_eq_true, if_false]

/-- On a drive that holds a tree, `resolve_path` gives what it gives in the tree that the scanner
sees. -/
theorem resolvePath_in_tree (ht : HoldsTree fs disk nodes entries) (hrep : HeapRep L heap bs) :
    ∃ tree : Nat → List DirEntry, (∀ d, nodes d → ∀ e ∈ tree d, e ∈ entries d) ∧
      ∀ blockBuf stack path,
        (resolvePath L disk fs heap blockBuf stack path).map Walk.currentInode =
          (resolvePathBy (treeFind tree) () path).map Prod.snd := by
  have hall : ∀ d, ∃ seen : List DirEntry, nodes d → (∀ e ∈ seen, e ∈ entries d) ∧
      ∀ heap, HeapRep L heap bs → ∀ blockBuf inode name, ∃ st,
        findInodeInDir L disk heap blockBuf inode fs d name = .ok st ∧
        st.result = inodeNamed seen name ∧ HeapRep L st.heap bs := by
    intro d
    by_cases hd : nodes d
    · obtain ⟨seen, hseen⟩ := ht.seen L bs d hd
      exact ⟨seen, fun _ => hseen⟩
    · exact ⟨[], fun h => absurd h hd⟩
  obtain ⟨tree, htree⟩ := Classical.axiomOfChoice hall
  refine ⟨tree, fun d hd => (htree d hd).1, fun blockBuf stack path => ?_⟩
  have hsim : (resolvePathBy (driveFind L disk fs) ⟨heap, blockBuf, stack, []⟩ path).map Prod.snd =
      (resolvePathBy (treeFind tree) () path).map Prod.snd := by
    -- the heap keeps its blocks, and the walk stays in the tree
    refine resolvePathBy_sim (R := fun s _ d => HeapRep L s.heap bs ∧ nodes d) ?_ ⟨hrep, ht.root⟩
      path
    rintro s t d name ⟨hs, hd⟩
    obtain ⟨hsub, hseen⟩ := htree d hd
    obtain ⟨st, hfind, hres, hheap⟩ := hseen s.heap hs s.blockBuf (s.stack 0) name
    refine ⟨⟨st.heap, st.blockBuf, fun k => s.stack (k + 1), s.searched ++ [d]⟩, t,
      inodeNamed (tree d) name, ?_, rfl, fun hne => ⟨hheap, ?_⟩⟩
    · rw [driveFind, hfind, ← hres]
      rfl
    · obtain ⟨e, he, hlive, -, hinode⟩ := inodeNamed_found hne
      rw [← hinode]
      exact ht.closed d hd e (hsub e he) hlive
  rw [resolvePath_eq_by, ← hsim]
  cases resolvePathBy (driveFind L disk fs) ⟨heap, blockBuf, stack, []⟩ path <;> rfl

end

/-- What is left of a path when the components in front have been looked up. -/
def restOf (names : List Text) (trail : List UInt8) : List UInt8 :=
  if names = [] then [] else (joined names).tail ++ trail

theorem restOf_cons (name : Text) (names : List Text) (trail : List UInt8) :
    restOf (name :: names) trail = name.chars ++ (joined names ++ trail) := by
  rw [restOf, if_neg (List.cons_ne_nil _ _), joined_cons, List.tail_cons, List.append_assoc]

theorem cutName_restOf (hslash : slash ∉ name.chars) (hle : name.chars.length ≤ 31)
    (htrail : trail = [] ∨ trail = [slash]) :
    cutName (restOf (name :: names) trail) = (name.chars, restOf names trail) := by
  have hrest : joined names ++ trail = [] ∨ (joined names ++ trail).head? = some slash := by
    cases names with
    | nil =>
      rcases htrail with rfl | rfl
      · exact .inl rfl
      · exact .inr rfl
    | cons n names => exact .inr rfl
  rw [restOf_cons, cutName_append hslash hle hrest]
  congr 1
  cases names with
  | nil => rcases htrail with rfl | rfl <;> rfl
  | cons n names => rfl

theorem restOf_length (hpos : ∀ name ∈ names, name.chars ≠ []) (trail : List UInt8) :
    names.length ≤ (restOf names trail).length := by
  have hjoined : ∀ names : List Text, names.length ≤ (joined names).length := by
    intro names
    induction names with
    | nil => exact Nat.le_refl 0
    | cons name names ih =>
      rw [joined_cons, List.length_cons, List.length_cons, List.length_append]
      omega
  cases names with
  | nil => exact Nat.zero_le _
  | cons name names =>
    have hname := List.length_pos_iff.2 (hpos name List.mem_cons_self)
    have hnames := hjoined names
    rw [restOf_cons, List.length_append, List.length_append, List.length_cons]
    omega

/-- The loop sees a path with components without the slash in front. -/
theorem PathOf.stripped (h : PathOf path (name :: names)) :
    path.chars ≠ [slash] ∧ ∃ trail, (trail = [] ∨ trail = [slash]) ∧
      (if path.chars.head? = some slash then path.chars.tail else path.chars) =
        restOf (name :: names) trail := by
  have hpos := h.name_pos name List.mem_cons_self
  have hslash := h.no_slash name List.mem_cons_self
  obtain ⟨c, chars, hc⟩ := List.exists_cons_of_ne_nil hpos
  have hhead : c ≠ slash := by
    rintro rfl
    exact hslash (hc ▸ List.mem_cons_self)
  obtain ⟨trail, htrail, hpath | hpath⟩ := h.spelled
  · rw [joined_cons, List.cons_append, List.append_assoc, ← restOf_cons] at hpath
    refine ⟨?_, trail, htrail, ?_⟩
    · rw [hpath, restOf_cons, hc]
      exact fun h => List.cons_ne_nil _ _ (List.cons.inj h).2
    · rw [hpath, List.head?_cons, if_pos rfl, List.tail_cons]
  · rw [joined_cons, List.tail_cons, List.append_assoc, ← restOf_cons] at hpath
    have hfirst : path.chars.head? = some c := by
      rw [hpath, restOf_cons, hc]
      rfl
    refine ⟨?_, trail, htrail, ?_⟩
    · intro hroot
      rw [hroot] at hfirst
      exact hhead (Option.some.inj hfirst).symm
    · rw [hfirst, if_neg fun h => hhead (Option.some.inj h), hpath]

section
variable {σ : Type} (find : Finder σ)

theorem resolveNamesBy_short (hpos : ∀ name ∈ names, name.chars ≠ [])
    (hslash : ∀ name ∈ names, slash ∉ name.chars) (hle : ∀ name ∈ names, name.chars.length ≤ 31)
    (htrail : trail = [] ∨ trail = [slash]) (hfuel : names.length < fuel) (s : σ) (dir : Nat) :
    resolveNamesBy find fuel (restOf names trail) s dir = lookupEach find names s dir := by
  induction names generalizing fuel s dir with
  | nil =>
    cases fuel with
    | zero => omega
    | succ fuel => rfl
  | cons name names ih =>
    cases fuel with
    | zero => omega
    | succ fuel =>
      have hne : restOf (name :: names) trail ≠ [] := by
        rw [restOf_cons]
        exact List.append_ne_nil_of_left_ne_nil (hpos name List.mem_cons_self) _
      have hcut : cutName (restOf (name :: names) trail) = (name.chars, restOf names trail) :=
        cutName_restOf (hslash name List.mem_cons_self) (hle name List.mem_cons_self) htrail
      rw [resolveNamesBy, if_neg hne, hcut, lookupEach]
      dsimp only
      rw [Text.ofBytes_self]
      cases find s dir name with
      | error e => rfl
      | ok r =>
        simp only [bind, Except.bind]
        rw [ih (fun n hn => hpos n (List.mem_cons_of_mem _ hn))
          (fun n hn => hslash n (List.mem_cons_of_mem _ hn))
          (fun n hn => hle n (List.mem_cons_of_mem _ hn)) (Nat.lt_of_succ_lt_succ hfuel)]

/-- Components that fit in the buffer are looked up as they are. -/
theorem PathOf.resolve_short (h : PathOf path names)
    (hle : ∀ name ∈ names, name.chars.length ≤ 31) (s : σ) :
    resolvePathBy find s path = lookupEach find names s 2 := by
  rw [resolvePathBy, if_neg h.not_empty]
  cases names with
  | nil =>
    have hroot : path.chars = [slash] := by
      obtain ⟨trail, htrail, hpath⟩ := h.spelled
      have hpath : path.chars = trail := hpath.elim id id
      rcases htrail with rfl | rfl
      · exact absurd hpath h.not_empty
      · exact hpath
    rw [if_pos ((strcmp_eq_zero_iff _ _).2 hroot)]
    rfl
  | cons name names =>
    obtain ⟨hroot, trail, htrail, hstrip⟩ := h.stripped
    rw [if_neg fun hcmp => hroot ((strcmp_eq_zero_iff _ _).1 hcmp)]
    dsimp only
    rw [hstrip]
    exact resolveNamesBy_short find h.name_pos h.no_slash hle htrail
      (Nat.lt_succ_of_le (restOf_length h.name_pos trail)) s 2

end

theorem inodeNamed_single (hi : i ≠ 0) (hname : name.chars ≠ []) :
    inodeNamed [⟨i, t, name.chars⟩] name = i := by
  have hlive : (⟨i, t, name.chars⟩ : DirEntry).live = true := decide_eq_true ⟨hi, hname⟩
  rw [inodeNamed, List.filter_cons_of_pos hlive]
  simp

/-- The components lead to the end of their chain. -/
theorem lookupEach_chainTree (before names : List Text)
    (hpos : ∀ name ∈ names, name.chars ≠ []) :
    lookupEach (treeFind (chainTree (before ++ names))) names () (2 + before.length) =
      .ok ((), 2 + (before ++ names).length) := by
  induction names generalizing before with
  | nil => rw [List.append_nil, lookupEach]
  | cons name names ih =>
    have hentry : chainTree (before ++ name :: names) (2 + before.length) =
        [⟨2 + before.length + 1, 2, name.chars⟩] := by
      rw [chainTree, Nat.add_sub_cancel_left, List.getElem?_append_right (Nat.le_refl _),
        Nat.sub_self]
      rfl
    have hfound := inodeNamed_single (i := 2 + before.length + 1) (t := 2) (by omega)
      (hpos name List.mem_cons_self)
    have hnext := ih (before ++ [name]) fun n hn => hpos n (List.mem_cons_of_mem _ hn)
    rw [List.append_assoc, List.singleton_append, List.length_append, List.length_singleton,
      ← Nat.add_assoc] at hnext
    rw [lookupEach, treeFind, hentry, hfound]
    exact hnext

/-- A piece of 31 bytes does not lead past a longer component. -/
theorem inodeNamed_chainTree_le (hlong : names[j]? = some long) (hlen : 31 < long.chars.length)
    (hdir : dir ≤ 2 + j) (hname : name.chars.length ≤ 31) :
    inodeNamed (chainTree names dir) name ≤ 2 + j := by
  by_contra hgt
  have hfound : inodeNamed (chainTree names dir) name ≠ 0 := by omega
  obtain ⟨e, he, -, hchars, hinode⟩ := inodeNamed_found hfound
  rw [← hinode] at hgt
  rw [chainTree] at he
  cases hat : names[dir - 2]? with
  | none =>
    rw [hat] at he
    exact List.not_mem_nil he
  | some n =>
    rw [hat] at he
    obtain rfl := List.mem_singleton.1 he
    have hlast : dir - 2 = j := by
      dsimp only at hgt
      omega
    rw [hlast, hlong] at hat
    obtain rfl := Option.some.inj hat
    dsimp only at hchars
    rw [hchars] at hlen
    omega

theorem resolveNamesBy_chainTree_le (hlong : names[j]? = some long)
    (hlen : 31 < long.chars.length) (hdir : dir ≤ 2 + j)
    (h : resolveNamesBy (treeFind (chainTree names)) fuel path () dir = .ok r) : r.2 ≤ 2 + j := by
  induction fuel generalizing path dir with
  | zero => cases h
  | succ fuel ih =>
    rw [resolveNamesBy] at h
    by_cases hnil : path = []
    · rw [if_pos hnil] at h
      cases h
      exact hdir
    · have hpiece : (Text.ofBytes (cutName path).1).chars.length ≤ 31 := by
        refine (List.takeWhile_prefix _).length_le.trans ?_
        exact List.length_take_le _ _
      have hle := inodeNamed_chainTree_le hlong hlen hdir hpiece
      rw [if_neg hnil] at h
      simp only [treeFind, bind, Except.bind] at h
      split at h
      · cases h
        exact Nat.zero_le _
      · exact ih hle h

/-- The pieces of a component that is too long do not come to the end of the chain. -/
theorem PathOf.resolve_long (h : PathOf path names) (hname : name ∈ names)
    (hlen : 31 < name.chars.length) :
    resolvePathBy (treeFind (chainTree names)) () path ≠
      lookupEach (treeFind (chainTree names)) names () 2 := by
  intro heq
  obtain ⟨j, hj, hat⟩ := List.getElem_of_mem hname
  have hend := lookupEach_chainTree [] names h.name_pos
  rw [List.nil_append] at hend
  have hroot : path.chars ≠ [slash] := by
    cases names with
    | nil => exact absurd hname List.not_mem_nil
    | cons n names => exact h.stripped.1
  have hcode := heq.trans hend
  rw [resolvePathBy, if_neg h.not_empty,
    if_neg fun hcmp => hroot ((strcmp_eq_zero_iff _ _).1 hcmp)] at hcode
  have hle := resolveNamesBy_chainTree_le (List.getElem?_eq_some_iff.2 ⟨hj, hat⟩) hlen
    (Nat.le_add_right 2 j) hcode
  dsimp only at hle
  omega

/-- `name` holds 31 bytes, and a longer component is looked up in pieces. `resolve_path` is iterated
lookup in every directory tree exactly for paths whose components fit, and then it makes the same
calls on every drive. -/
theorem resolve_path_iterates_iff (h : PathOf path names) :
    (IteratesInTrees path names ↔ ∀ name ∈ names, name.chars.length ≤ 31) ∧
      ((∀ name ∈ names, name.chars.length ≤ 31) → IteratesOnDrives path names) := by
  refine ⟨⟨fun hall name hname => ?_, fun hle tree => h.resolve_short _ hle ()⟩, ?_⟩
  · by_contra hlong
    exact h.resolve_long hname (by omega) (hall (chainTree names))
  · intro hle L disk fs heap blockBuf stack
    rw [resolvePath_eq_by, h.resolve_short _ hle]

/-- The path `/d/./`. -/
def pathDDot : Text := ⟨[slash, 0x64, slash, 0x2E, slash], by decide⟩

theorem resolve_path_iterates_pathDDot :
    IteratesInTrees pathDDot [nameD, dot] ∧ IteratesOnDrives pathDDot [nameD, dot] := by
  have hpath : PathOf pathDDot [nameD, dot] :=
    { name_pos := by decide
      no_slash := by decide
      name_le := by decide
      not_empty := by decide
      spelled := ⟨[slash], by decide⟩ }
  have hle : ∀ name ∈ [nameD, dot], name.chars.length ≤ 31 := by decide
  have hiff := resolve_path_iterates_iff hpath
  exact ⟨hiff.1.2 hle, hiff.2 hle⟩

/-- A name of 32 bytes. -/
def longName : Text := ⟨List.replicate 32 0x61, by decide⟩

/-- A raw image with a file of that name, inode 12, in its root directory. -/
def longNameImage : Disk := sparseDisk <|
  [(1024, 16), (1044, 1), (1064, 16), (1080, 0x53), (1081, 0xEF), (2056, 5),
    (5248, 0xED), (5249, 0x41), (5253, 0x04), (5288, 8), (6528, 0xA4), (6529, 0x81),
    (8192, 12), (8197, 0x04), (8198, 32), (8199, 1)] ++
  (List.range 32).map fun i => (8200 + i, 0x61)

theorem mount_longNameImage : ∃ fs, mount longNameImage zeroed = .ok fs ∧
    (resolvePath Layout.sample longNameImage fs bootMemory zeroed (fun _ => zeroed) longName).map
      (fun w => decide (w.currentInode = 0)) = .ok true ∧
    (lookupEach (driveFind Layout.sample longNameImage fs) [longName]
      ⟨bootMemory, zeroed, fun _ => zeroed, []⟩ 2).map (fun r => decide (r.2 = 12)) = .ok true :=
  exists_ok (by decide +kernel)

/-- The 31 bytes in front of a longer name are not found, though the name is in the directory. -/
theorem resolve_path_splits_name : ¬ ∀ disk fs, mount disk zeroed = .ok fs →
    ∀ L heap blockBuf stack path names, PathOf path names →
      (resolvePath L disk fs heap blockBuf stack path).map Walk.currentInode =
        (lookupEach (driveFind L disk fs) names ⟨heap, blockBuf, stack, []⟩ 2).map Prod.snd := by
  intro h
  have hpath : PathOf longName [longName] :=
    { name_pos := by decide
      no_slash := by decide
      name_le := by decide
      not_empty := by decide
      spelled := ⟨[], by decide⟩ }
  obtain ⟨fs, hmount, hcode, hlookup⟩ := mount_longNameImage
  obtain ⟨w, hw, hzero⟩ := exists_ok hcode
  obtain ⟨r, hr, htwelve⟩ := exists_ok hlookup
  have heq := h _ fs hmount Layout.sample bootMemory zeroed (fun _ => zeroed) longName [longName]
    hpath
  rw [hw, hr] at heq
  have hinode : w.currentInode = r.2 := Except.ok.inj heq
  omega

end KernelCustom
