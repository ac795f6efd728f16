import KernelCustom.CurrentDirectory

namespace KernelCustom
open ByteStore CString EarlyExit
set_option autoImplicit true

/-- A call of `ext2_cd`: its argument, and what it finds on the disk, on the heap and in the
structs. -/
structure CdCall where
  layout : Layout
  disk : Disk
  heap : MemoryState
  dirBlockBuf : Mem
  lookupInode : Mem
  fs : FileSystem
  path : Text
  inode : Mem
  out : Console

/-- The current directory after a call. -/
def Cwd.cd (cwd : Cwd) (c : CdCall) : Except Stuck Cwd :=
  (ext2Cd c.layout c.disk c.heap c.dirBlockBuf c.lookupInode c.fs cwd c.path c.inode c.out).map
    CdRun.cwd

/-- `g_cwd_path` ends within its 128 bytes, and nothing has been written outside of them. -/
structure Cwd.InBounds (cwd : Cwd) : Prop where
  nul : ∃ n : Nat, n < 128 ∧ cwd.gCwdPath n = 0
  writes : ∀ i ∈ cwd.writes, 0 ≤ i ∧ i < 128

/-- The argument leads from the current directory to a directory. -/
def CdCall.Finds (c : CdCall) (cwd : Cwd) : Prop :=
  ∃ st ino, ext2Lookup c.layout c.disk c.heap c.dirBlockBuf c.lookupInode c.fs cwd.internalId
    c.path = .ok st ∧ st.result ≠ 0 ∧ readInode c.fs c.disk st.result c.inode = .ok ino ∧
    isDirectory ino = true

/-- The length of the path with a name behind it. -/
def Cwd.extended (cwd : Cwd) (name : Text) : Nat :=
  if arrayLength cwd.gCwdPath = 1 ∧ cwd.gCwdPath 0 = slash then 1 + strlen name
  else arrayLength cwd.gCwdPath + 1 + strlen name

/-- A call that puts a name behind the path finds room for it. -/
def CdCall.Fits (c : CdCall) (cwd : Cwd) : Prop :=
  c.path.chars ≠ [] → c.path.chars ≠ dot.chars → c.path.chars ≠ dotDot.chars → c.Finds cwd →
    cwd.extended c.path ≤ 127

/-- A condition on every call in the state in which it is made. -/
def Cwd.EachCall (P : CdCall → Cwd → Prop) : Cwd → List CdCall → Prop
  | _, [] => True
  | cwd, c :: calls => P c cwd ∧ ∀ cwd', cwd.cd c = .ok cwd' → EachCall P cwd' calls

theorem Cwd.mem_writes_write (cwd : Cwd) (i : Int) (l : List UInt8) (j : Int) :
    j ∈ (cwd.write i l).writes ↔ j ∈ cwd.writes ∨ i ≤ j ∧ j ≤ i + l.length := by
  induction l generalizing cwd i with
  | nil =>
    rw [Cwd.write, Cwd.store, List.mem_append, List.mem_singleton, List.length_nil]
    apply or_congr_right
    omega
  | cons c l ih =>
    rw [Cwd.write, ih, Cwd.store, List.mem_append, List.mem_singleton, List.length_cons, or_assoc]
    apply or_congr_right
    omega

theorem Cwd.write_nul (cwd : Cwd) (i : Int) (l : List UInt8) :
    (cwd.write i l).gCwdPath (i + l.length) = 0 := by
  induction l generalizing cwd i with
  | nil =>
    rw [List.length_nil, Nat.cast_zero, Int.add_zero]
    exact Function.update_self i 0 cwd.gCwdPath
  | cons c l ih =>
    have hend : i + (c :: l).length = i + 1 + l.length := by
      rw [List.length_cons]
      omega
    rw [hend]
    exact ih _ _

theorem lastSlash_lt (a : Int → UInt8) (n : Nat) : lastSlash a n < n := by
  induction n with
  | zero => exact Int.negSucc_lt_zero 0
  | succ n ih =>
    rw [lastSlash]
    split
    · omega
    · omega

theorem Cwd.InBounds.length_lt {cwd : Cwd} (h : cwd.InBounds) : arrayLength cwd.gCwdPath < 128 := by
  obtain ⟨n, hn, hnul⟩ := h.nul
  have hle : arrayLength cwd.gCwdPath ≤ n := arrayLength_le hnul (by omega)
  omega

theorem Cwd.InBounds.start {cwd : Cwd} (hpath : Spells cwd.gCwdPath [slash])
    (hwrites : cwd.writes = []) : cwd.InBounds := by
  refine ⟨⟨1, by decide, hpath.nul⟩, fun i hi => ?_⟩
  rw [hwrites] at hi
  exact absurd hi List.not_mem_nil

/-- A NUL in the buffer cuts the path. -/
theorem Cwd.InBounds.store {cwd : Cwd} (h : cwd.InBounds) {i : Int} (h₀ : 0 ≤ i) (hi : i < 128) :
    (cwd.store i 0).InBounds := by
  refine ⟨⟨i.toNat, by omega, ?_⟩, fun j hj => ?_⟩
  · rw [Int.toNat_of_nonneg h₀]
    exact Function.update_self i 0 cwd.gCwdPath
  · rcases List.mem_append.1 hj with hj | hj
    · exact h.writes j hj
    · rw [List.mem_singleton.1 hj]
      exact ⟨h₀, hi⟩

theorem Cwd.InBounds.ascend {cwd : Cwd} (h : cwd.InBounds) : cwd.ascend.InBounds := by
  have hlen := h.length_lt
  have hlast := lastSlash_lt cwd.gCwdPath (arrayLength cwd.gCwdPath)
  simp only [Cwd.ascend]
  split
  · exact h.store (by omega) (by omega)
  split
  · exact h.store (by decide) (by decide)
  · exact h

/-- A name goes behind the path in one piece. -/
theorem Cwd.descend_eq (cwd : Cwd) (name : Text) : ∃ (i : Int) (l : List UInt8), 0 ≤ i ∧
    cwd.descend name = cwd.write i l ∧ i + l.length = cwd.extended name := by
  by_cases hroot : arrayLength cwd.gCwdPath = 1 ∧ cwd.gCwdPath 0 = slash
  · refine ⟨1, name.chars, by decide, ?_, ?_⟩
    · simp only [Cwd.descend, if_pos hroot]
    · rw [Cwd.extended, if_pos hroot, strlen]
      omega
  · refine ⟨arrayLength cwd.gCwdPath, slash :: name.chars, by omega, ?_, ?_⟩
    · simp only [Cwd.descend, if_neg hroot]
      rfl
    · rw [Cwd.extended, if_neg hroot, strlen, List.length_cons]
      omega

/-- The NUL is the last byte that is written. -/
theorem Cwd.descend_spec (cwd : Cwd) (name : Text) :
    (cwd.descend name).gCwdPath (cwd.extended name) = 0 ∧
      ((cwd.extended name : Nat) : Int) ∈ (cwd.descend name).writes ∧
      ∀ j ∈ (cwd.descend name).writes, j ∈ cwd.writes ∨ 0 ≤ j ∧ j ≤ cwd.extended name := by
  obtain ⟨i, l, hi, hdescend, hend⟩ := cwd.descend_eq name
  have hnul := cwd.write_nul i l
  rw [hdescend, ← hend]
  refine ⟨hnul, (cwd.mem_writes_write i l _).2 (.inr ⟨by omega, by omega⟩), fun j hj => ?_⟩
  rcases (cwd.mem_writes_write i l j).1 hj with hj | hj
  · exact .inl hj
  · exact .inr ⟨by omega, hj.2⟩

theorem Cwd.InBounds.descend {cwd : Cwd} (h : cwd.InBounds) (hroom : cwd.extended name ≤ 127) :
    (cwd.descend name).InBounds := by
  obtain ⟨hnul, -, hwrites⟩ := cwd.descend_spec name
  refine ⟨⟨cwd.extended name, by omega, hnul⟩, fun j hj => ?_⟩
  rcases hwrites j hj with hj | hj
  · exact h.writes j hj
  · omega

/-- A call that finds no directory leaves everything as it was. -/
theorem Cwd.cd_of_not_finds {cwd cwd' : Cwd} (h : cwd.cd c = .ok cwd')
    (hfinds : c.path.chars ≠ [] → ¬ c.Finds cwd) : cwd' = cwd := by
  obtain ⟨r, hr, rfl⟩ := map_ok h
  by_cases hnil : c.path.chars = []
  · rw [ext2Cd, if_pos hnil] at hr
    cases hr
    rfl
  · rcases ext2Cd_cases hr with hcwd | ⟨st, ino, hlook, hne, hread, hdir, -⟩
    · exact hcwd
    · exact absurd ⟨st, ino, hlook, hne, (readLocalInode_ok hread).1, hdir⟩ (hfinds hnil)

/-- A call that finds a directory edits the path. -/
theorem Cwd.cd_of_finds {cwd cwd' : Cwd} (h : cwd.cd c = .ok cwd') (hnil : c.path.chars ≠ [])
    (hfinds : c.Finds cwd) : ∃ id, cwd' = { cwd.edit c.path with internalId := id } := by
  obtain ⟨st, ino, hlook, hne, hread, hdir⟩ := hfinds
  obtain ⟨r, hr, rfl⟩ := map_ok h
  -- the call comes back, so the record fits the struct
  obtain ⟨ino', hlocal⟩ := ext2Cd_reads hnil hlook hne hr
  cases hread.symm.trans (readLocalInode_ok hlocal).1
  obtain ⟨out, hcall⟩ := ext2Cd_found hnil hlook hne hlocal hdir c.out
  rw [hcall] at hr
  cases hr
  exact ⟨st.result, rfl⟩

/-- A call that fits keeps the buffer in bounds, and any other call writes outside of it. -/
theorem Cwd.InBounds.cd {cwd cwd' : Cwd} (hb : cwd.InBounds) (h : cwd.cd c = .ok cwd') :
    (c.Fits cwd → cwd'.InBounds) ∧ ((∀ i ∈ cwd'.writes, 0 ≤ i ∧ i < 128) → c.Fits cwd) := by
  by_cases hfinds : c.path.chars ≠ [] ∧ c.Finds cwd
  · obtain ⟨hnil, hfinds⟩ := hfinds
    obtain ⟨id, rfl⟩ := Cwd.cd_of_finds h hnil hfinds
    by_cases hdot : c.path.chars = dot.chars
    · rw [Cwd.edit_dot cwd hdot]
      exact ⟨fun _ => ⟨hb.nul, hb.writes⟩, fun _ _ hne => absurd hdot hne⟩
    by_cases hup : c.path.chars = dotDot.chars
    · rw [Cwd.edit_dotDot cwd hup]
      exact ⟨fun _ => ⟨hb.ascend.nul, hb.ascend.writes⟩, fun _ _ _ hne => absurd hup hne⟩
    · rw [Cwd.edit_name cwd hdot hup]
      constructor
      · intro hfits
        have hnew : (cwd.descend c.path).InBounds := hb.descend (hfits hnil hdot hup hfinds)
        exact ⟨hnew.nul, hnew.writes⟩
      · intro hwrites _ _ _ _
        obtain ⟨-, hend, -⟩ := cwd.descend_spec c.path
        have hlast := (hwrites _ hend).2
        omega
  · rw [Cwd.cd_of_not_finds h fun hnil hf => hfinds ⟨hnil, hf⟩]
    exact ⟨fun _ => hb, fun _ hnil _ _ hf => absurd ⟨hnil, hf⟩ hfinds⟩

theorem Cwd.writes_edit (cwd : Cwd) (path : Text) : cwd.writes ⊆ (cwd.edit path).writes := by
  have hstore : ∀ (cwd : Cwd) (i : Int) (c : UInt8), cwd.writes ⊆ (cwd.store i c).writes :=
    fun _ _ _ _ hj => List.mem_append_left _ hj
  have hwrite : ∀ (cwd : Cwd) (i : Int) (l : List UInt8), cwd.writes ⊆ (cwd.write i l).writes :=
    fun cwd i l j hj => (cwd.mem_writes_write i l j).2 (.inl hj)
  simp only [Cwd.edit, Cwd.ascend, Cwd.descend]
  split
  · exact List.Subset.refl _
  split
  · split
    · exact hstore cwd _ _
    split
    · exact hstore cwd _ _
    · exact List.Subset.refl _
  · split
    · exact hwrite cwd _ _
    · exact List.Subset.trans (hstore cwd _ _) (hwrite _ _ _)

theorem Cwd.writes_cd {cwd cwd' : Cwd} (h : cwd.cd c = .ok cwd') : cwd.writes ⊆ cwd'.writes := by
  obtain ⟨r, hr, rfl⟩ := map_ok h
  rcases ext2Cd_cases hr with hcwd | ⟨st, ino, -, -, -, -, hcwd, -⟩
  · rw [hcwd]
    exact List.Subset.refl _
  · rw [hcwd]
    exact cwd.writes_edit c.path

theorem Cwd.writes_calls {cwd cwd' : Cwd} {calls : List CdCall}
    (h : calls.foldlM Cwd.cd cwd = .ok cwd') :
    cwd.writes ⊆ cwd'.writes := by
  induction calls generalizing cwd with
  | nil =>
    cases h
    exact List.Subset.refl _
  | cons c calls ih =>
    obtain ⟨cwd₁, hcall, hrest⟩ := bind_ok h
    exact List.Subset.trans (Cwd.writes_cd hcall) (ih hrest)

theorem Cwd.InBounds.calls {cwd cwd' : Cwd} {calls : List CdCall} (hb : cwd.InBounds)
    (h : calls.foldlM Cwd.cd cwd = .ok cwd') :
    cwd'.InBounds ↔ cwd.EachCall CdCall.Fits calls := by
  induction calls generalizing cwd with
  | nil =>
    cases h
    exact iff_of_true hb trivial
  | cons c calls ih =>
    obtain ⟨cwd₁, hcall, hrest⟩ := bind_ok h
    obtain ⟨hkeeps, hfits⟩ := hb.cd hcall
    constructor
    · intro hb'
      have hfit : c.Fits cwd := hfits fun i hi => hb'.writes i (Cwd.writes_calls hrest hi)
      refine ⟨hfit, fun cwd₂ hcall' => ?_⟩
      rw [hcall] at hcall'
      cases hcall'
      exact (ih (hkeeps hfit) hrest).1 hb'
    · rintro ⟨hfit, heach⟩
      exact (ih (hkeeps hfit) hrest).2 (heach cwd₁ hcall)

/-- From the root on, whatever the disk holds, the path stays in its buffer exactly when every call
that puts a name behind it finds room for the name and its NUL. -/
theorem path_buffer_in_bounds_iff {cwd cwd' : Cwd} {calls : List CdCall}
    (hpath : Spells cwd.gCwdPath [slash]) (hwrites : cwd.writes = [])
    (h : calls.foldlM Cwd.cd cwd = .ok cwd') :
    cwd'.InBounds ↔ cwd.EachCall CdCall.Fits calls :=
  (Cwd.InBounds.start hpath hwrites).calls h

/-- A call with the heap of `heap_init` and zeroed buffers. -/
def callOn (disk : Disk) (fs : FileSystem) (path : Text) : CdCall :=
  ⟨Layout.sample, disk, rootShell.heap, zeroed, zeroed, fs, path, zeroed, ⟨[], []⟩⟩

theorem callOn_ok (disk : Disk) (fs : FileSystem) (path : Text) {P : Cwd → Prop}
    [DecidablePred P]
    (h : (rootShell.cwd.cd (callOn disk fs path)).map (fun cwd => decide (P cwd)) = .ok true) :
    ∃ cwd, [callOn disk fs path].foldlM Cwd.cd rootShell.cwd = .ok cwd ∧ P cwd := by
  obtain ⟨cwd, hcall, hp⟩ := exists_ok h
  refine ⟨cwd, ?_, hp⟩
  rw [List.foldlM_cons, hcall]
  rfl

theorem path_buffer_after_cd_d :
    ∃ cwd, [callOn nestedImage nestedFs nameD].foldlM Cwd.cd rootShell.cwd = .ok cwd ∧
      cwd.internalId = 11 ∧ cwd.InBounds := by
  obtain ⟨cwd, hcalls, hid⟩ := callOn_ok nestedImage nestedFs nameD
    (P := fun cwd => cwd.internalId = 11) (by decide +kernel)
  refine ⟨cwd, hcalls, hid, ?_⟩
  apply (path_buffer_in_bounds_iff rootShell_path rfl hcalls).2
  exact ⟨fun _ _ _ _ => by decide +kernel, fun _ _ => trivial⟩

/-- The image with a directory in its root whose name has 127 bytes. -/
def longImage : Disk := sparseDisk
  ([(1024, 16), (1044, 1), (1064, 16), (1080, 0x53), (1081, 0xEF), (2056, 5),
    (5248, 0xED), (5249, 0x41), (5253, 4), (5288, 8),
    (6400, 0xED), (6401, 0x41), (6405, 4), (6440, 9),
    (8192, 11), (8196, 0xE8), (8197, 0x03), (8198, 127), (8199, 2)] ++
    (List.range 127).map fun i => (8200 + i, 0x64))

def name127 : Text :=
  ⟨List.replicate 127 0x64, fun h => absurd (List.eq_of_mem_replicate h) (by decide)⟩

/-- `cd` into that directory: the NUL goes behind the buffer. -/
theorem cd_writes_behind_buffer : ¬ ∀ (cwd cwd' : Cwd) (calls : List CdCall),
    Spells cwd.gCwdPath [slash] → cwd.writes = [] → (∀ c ∈ calls, strlen c.path ≤ 252) →
    calls.foldlM Cwd.cd cwd = .ok cwd' → cwd'.InBounds := by
  intro hall
  obtain ⟨cwd, hcalls, hmem⟩ := callOn_ok longImage
    { nestedFs with fsGdt := diskRead longImage 4 zeroed 0 2 } name127
    (P := fun cwd => 128 ∈ cwd.writes) (by decide +kernel)
  have hb := hall _ cwd _ rootShell_path rfl (by decide +kernel) hcalls
  exact absurd (hb.writes 128 hmem).2 (by decide)

end KernelCustom
