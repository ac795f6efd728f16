import KernelCustom.BlockPlaces
import KernelCustom.EarlyExit
import KernelCustom.HeapGuarantees

namespace KernelCustom
open Word32 ByteStore CString EarlyExit
set_option autoImplicit true

/-- A directory entry as the format has it. -/
structure DirEntry where
  inode : Nat
  fileType : UInt8
  name : List UInt8
  deriving DecidableEq

/-- Entries that name a file: neither deleted nor without a name. -/
def DirEntry.live (e : DirEntry) : Bool := e.inode ≠ 0 ∧ e.name ≠ []

def readDirEntry (b : Mem) (offset : Nat) : DirEntry :=
  ⟨entryInode b offset, entryFileType b offset, bytesAt b (offset + 8) (entryNameLen b offset)⟩

/-- A block is a chain of records that ends with it. Each record holds its header and its name,
and no name has a NUL. -/
inductive EntriesAt (b : Mem) (limit : Nat) : Nat → List DirEntry → Prop
  | done : EntriesAt b limit limit []
  | entry : 8 + entryNameLen b offset ≤ entryRecLen b offset →
      offset + entryRecLen b offset ≤ limit → 0 ∉ (readDirEntry b offset).name →
      EntriesAt b limit (offset + entryRecLen b offset) es →
      EntriesAt b limit offset (readDirEntry b offset :: es)

/-- What the blocks of a directory hold, one after the other; a zero id is a hole. -/
inductive BlocksHold (blockAt : Nat → Mem) (gBlockSize : Nat) :
    List Nat → List DirEntry → Prop
  | nil : BlocksHold blockAt gBlockSize [] []
  | hole : BlocksHold blockAt gBlockSize ids es → BlocksHold blockAt gBlockSize (0 :: ids) es
  | block : blockId ≠ 0 → blockId ≤ 0x100000 → EntriesAt (blockAt blockId) gBlockSize 0 es →
      BlocksHold blockAt gBlockSize ids es' →
      BlocksHold blockAt gBlockSize (blockId :: ids) (es ++ es')

/-- A visit looks only at the entry. -/
def Sees (visit : Visit σ) (f : DirEntry → σ → σ × Bool) : Prop :=
  ∀ buf offset result, 0 ∉ (readDirEntry buf offset).name →
    visit buf offset result = f (readDirEntry buf offset) result

theorem BlocksHold.holes (h : BlocksHold blockAt gBlockSize ids es) (hz : ∀ id ∈ ids, id = 0) :
    es = [] := by
  induction h with
  | nil => rfl
  | hole _ ih => exact ih fun id hid => hz id (List.mem_cons_of_mem _ hid)
  | block hne _ _ _ _ => exact (hne (hz _ List.mem_cons_self)).elim

theorem readDirEntry_congr (h : SameOn b buf 0 limit)
    (hfit : offset + 8 + entryNameLen b offset ≤ limit) :
    readDirEntry buf offset = readDirEntry b offset := by
  have hlen : entryNameLen buf offset = entryNameLen b offset := by
    rw [entryNameLen, entryNameLen, h _ (by omega) (by omega)]
  rw [readDirEntry, readDirEntry, hlen, bytesAt_congr h (by omega) (by omega)]
  rw [entryInode, entryInode, entryFileType, entryFileType, h.load32 (by omega) (by omega),
    h _ (by omega) (by omega)]

theorem EntriesAt.cons (len : Nat) (hlen : entryRecLen b offset = len)
    (he : readDirEntry b offset = e) (hname : 8 + entryNameLen b offset ≤ len)
    (hfit : offset + len ≤ limit) (hnul : 0 ∉ e.name)
    (h : EntriesAt b limit (offset + len) es) : EntriesAt b limit offset (e :: es) := by
  subst hlen he
  exact .entry hname hfit hnul h

theorem EntriesAt.congr (h : EntriesAt b limit offset es) (hsame : SameOn b b' 0 limit) :
    EntriesAt b' limit offset es := by
  induction h with
  | done => exact .done
  | @entry offset es hname hrec hnul _ ih =>
    have hentry : readDirEntry b' offset = readDirEntry b offset :=
      readDirEntry_congr hsame (by omega)
    have hlen : entryNameLen b' offset = entryNameLen b offset := by
      rw [entryNameLen, entryNameLen, hsame _ (by omega) (by omega)]
    exact .cons (entryRecLen b offset) (hsame.load16 (by omega) (by omega)) hentry (by omega) hrec
      hnul ih

theorem BlocksHold.congr (h : BlocksHold blockAt gBlockSize ids es)
    (hsame : ∀ blockId ∈ ids, blockId ≠ 0 →
      SameOn (blockAt blockId) (blockAt' blockId) 0 gBlockSize) :
    BlocksHold blockAt' gBlockSize ids es := by
  induction h with
  | nil => exact .nil
  | hole _ ih => exact .hole (ih fun b hb => hsame b (List.mem_cons_of_mem _ hb))
  | block hne hle hes _ ih =>
    exact .block hne hle (hes.congr (hsame _ List.mem_cons_self hne))
      (ih fun b hb => hsame b (List.mem_cons_of_mem _ hb))

theorem BlocksHold.split (h : BlocksHold blockAt gBlockSize (ids ++ ids') es) :
    ∃ es₁ es₂, es = es₁ ++ es₂ ∧ BlocksHold blockAt gBlockSize ids es₁ ∧
      BlocksHold blockAt gBlockSize ids' es₂ := by
  induction ids generalizing es with
  | nil => exact ⟨[], es, rfl, .nil, h⟩
  | cons blockId ids ih =>
    cases h with
    | hole h =>
      obtain ⟨es₁, es₂, rfl, h₁, h₂⟩ := ih h
      exact ⟨es₁, es₂, rfl, .hole h₁, h₂⟩
    | block hne hle hes h =>
      obtain ⟨es₁, es₂, rfl, h₁, h₂⟩ := ih h
      exact ⟨_, es₂, (List.append_assoc _ _ _).symm, .block hne hle hes h₁, h₂⟩

theorem BlocksHold.append (h : BlocksHold blockAt gBlockSize ids es)
    (h' : BlocksHold blockAt gBlockSize ids' es') :
    BlocksHold blockAt gBlockSize (ids ++ ids') (es ++ es') := by
  induction h with
  | nil => exact h'
  | hole _ ih => exact .hole ih
  | block hne hle hes _ ih =>
    rw [List.append_assoc]
    exact .block hne hle hes ih

theorem BlocksHold.of_holes (hz : ∀ blockId ∈ ids, blockId = 0) :
    BlocksHold blockAt gBlockSize ids [] := by
  induction ids with
  | nil => exact .nil
  | cons blockId ids ih =>
    obtain rfl := hz blockId List.mem_cons_self
    exact .hole (ih fun b hb => hz b (List.mem_cons_of_mem _ hb))

theorem BlocksHold.append_holes (h : BlocksHold blockAt gBlockSize ids es)
    (hz : ∀ blockId ∈ ids', blockId = 0) : BlocksHold blockAt gBlockSize (ids ++ ids') es := by
  rw [← List.append_nil es]
  exact h.append (.of_holes hz)

theorem BlocksHold.ids_le (h : BlocksHold blockAt gBlockSize ids es) (hmem : blockId ∈ ids) :
    blockId ≤ 0x100000 := by
  induction h with
  | nil => cases hmem
  | hole _ ih =>
    rcases List.mem_cons.1 hmem with rfl | hmem
    · exact Nat.zero_le _
    · exact ih hmem
  | block _ hle _ _ ih =>
    rcases List.mem_cons.1 hmem with rfl | hmem
    · exact hle
    · exact ih hmem

/-- Of a directory that is in reach the kernel sees what is on the drive. -/
theorem BlocksHold.in_reach
    (h : BlocksHold (placedBlock fs disk) fs.gBlockSize
      ((List.range count).map (fileBlock (placedBlock fs disk) ino)) es)
    (hreach : BlocksInReach fs disk ino count) (hcount : count ≤ 12 + fs.gBlockSize / 4) :
    BlocksHold (fsBlock fs disk) fs.gBlockSize
      ((List.range count).map (fileBlock (fsBlock fs disk) ino)) es := by
  have hids : (List.range count).map (fileBlock (fsBlock fs disk) ino) =
      (List.range count).map (fileBlock (placedBlock fs disk) ino) :=
    List.map_congr_left fun b hb =>
      fileBlock_in_reach hreach.indirect disk hcount (List.mem_range.1 hb)
  rw [hids]
  refine h.congr fun blockId hmem hne => ?_
  obtain ⟨b, hb, rfl⟩ := List.mem_map.1 hmem
  rw [(hreach.blocks b (List.mem_range.1 hb) hne).fsBlock_eq]
  exact SameOn.refl _ _ _

theorem live_iff (b : Mem) (offset : Nat) : (readDirEntry b offset).live = true ↔
    entryInode b offset ≠ 0 ∧ 0 < entryNameLen b offset := by
  rw [DirEntry.live, decide_eq_true_iff, readDirEntry]
  refine and_congr_right fun _ => ?_
  rw [← List.length_pos_iff, length_bytesAt]

section
variable {σ : Type} {visit : Visit σ} {f : DirEntry → σ → σ × Bool}

/-- The loop over a block goes through its live entries. -/
theorem scanEntries_spec (hv : Sees visit f) (h : EntriesAt b limit offset es)
    (hbuf : SameOn b buf 0 limit) (hsize : limit ≤ 4096) (hfuel : limit < fuel + offset)
    (result : σ) :
    scanEntries limit visit buf fuel offset result =
      some (scan f (es.filter DirEntry.live) result) := by
  induction h generalizing fuel result with
  | done =>
    cases fuel with
    | zero => omega
    | succ fuel =>
      rw [scanEntries, if_neg (by omega)]
      rfl
  | @entry offset es hname hrec hnul htail ih =>
    cases fuel with
    | zero => omega
    | succ fuel =>
      have hentry : readDirEntry buf offset = readDirEntry b offset :=
        readDirEntry_congr hbuf (by omega)
      have hlen : entryRecLen buf offset = entryRecLen b offset := by
        rw [entryRecLen, entryRecLen, hbuf.load16 (by omega) (by omega)]
      have hsame : entryInode buf offset ≠ 0 ∧ 0 < entryNameLen buf offset ↔
          (readDirEntry b offset).live = true := by rw [← hentry, live_iff]
      rw [scanEntries, if_pos (by omega), if_neg (by omega), hlen, wrap_of_lt (by omega),
        List.filter_cons]
      by_cases hlive : (readDirEntry b offset).live = true
      · rw [if_pos (hsame.2 hlive), if_pos hlive, hv _ _ _ (hentry ▸ hnul), hentry, scan]
        dsimp only
        rw [ih (by omega)]
        split <;> rfl
      · rw [if_neg (hsame.not.2 hlive), if_neg hlive]
        exact ih (by omega) result

/-- There is room for the indirect block, or it is in memory. -/
structure IndirectReady (L : Layout) (fs : FileSystem) (disk : Disk) (inode : Mem)
    (st : Scan σ) : Prop where
  room : st.indirectBuf = 0 → 12 < blockCountOf fs inode → iBlock inode 12 ≠ 0 →
    ∃ p heap, kmalloc L st.heap fs.gBlockSize = some (p, heap) ∧ p ≠ 0
  held : st.indirectBuf ≠ 0 → ∀ x < fs.gBlockSize,
    st.heap.mem (st.indirectBuf + x) = fsBlock fs disk (iBlock inode 12) x

theorem openIndirect_spec {st : Scan σ} (hr : IndirectReady L fs disk inode st)
    (hsec : 512 * (fs.gBlockSize / 512) = fs.gBlockSize) (hcount : 12 < blockCountOf fs inode)
    (hne : iBlock inode 12 ≠ 0) (hid : iBlock inode 12 ≤ 0x100000) :
    ∃ st', openIndirect L fs disk inode st = .ok st' ∧ st'.result = st.result ∧
      st'.indirectBuf ≠ 0 ∧ IndirectReady L fs disk inode st' := by
  rw [openIndirect]
  by_cases hbuf : st.indirectBuf = 0
  · obtain ⟨p, heap, hk, hp⟩ := hr.room hbuf hcount hne
    obtain ⟨m, hread, hm⟩ := readFsBlock_brings disk heap.mem p hid
      (Nat.le_refl _) hsec
    rw [if_neg (not_not.2 hbuf), hk]
    simp only [if_neg hp, hread]
    exact ⟨_, rfl, rfl, hp, fun h => (hp h).elim, fun _ => hm⟩
  · rw [if_pos hbuf]
    exact ⟨st, rfl, rfl, hbuf, hr⟩

theorem blockIdOf_spec {st : Scan σ} (hr : IndirectReady L fs disk inode st)
    (hsec : 512 * (fs.gBlockSize / 512) = fs.gBlockSize) (hlt : blk < blockCountOf fs inode)
    (hcount : blockCountOf fs inode ≤ 12 + fs.gBlockSize / 4)
    (hid : 12 < blockCountOf fs inode → iBlock inode 12 ≤ 0x100000) :
    ∃ st' blockId, blockIdOf L fs disk inode blk st = .ok (st', blockId) ∧
      st'.result = st.result ∧ IndirectReady L fs disk inode st' ∧
      (blockId = some (fileBlock (fsBlock fs disk) inode blk) ∨
        blockId = none ∧ 12 ≤ blk ∧ iBlock inode 12 = 0) := by
  rw [blockIdOf, fileBlock]
  by_cases hdirect : blk < 12
  · rw [if_pos hdirect, if_pos hdirect]
    exact ⟨st, _, rfl, rfl, hr, .inl rfl⟩
  · rw [if_neg hdirect, if_neg hdirect]
    by_cases hne : iBlock inode 12 = 0
    · rw [if_pos hne]
      exact ⟨st, _, rfl, rfl, hr, .inr ⟨rfl, by omega, hne⟩⟩
    · obtain ⟨st', hopen, hres, hbuf, hr'⟩ :=
        openIndirect_spec hr hsec (by omega) hne (hid (by omega))
      have hword : load32 st'.heap.mem (st'.indirectBuf + 4 * (blk - 12)) =
          load32 (fsBlock fs disk (iBlock inode 12)) (4 * (blk - 12)) := by
        have hbyte := hr'.held hbuf
        simp only [load32, Nat.add_assoc]
        rw [hbyte _ (by omega), hbyte _ (by omega), hbyte _ (by omega), hbyte _ (by omega)]
      rw [if_neg hne, if_neg hne, hopen]
      refine ⟨st', _, ?_, hres, hr', .inl rfl⟩
      simp only [bind, Except.bind, if_neg hbuf]
      rw [if_neg (by omega), hword]

theorem scanBlock_spec (hv : Sees visit f) (st : Scan σ) (hsize : fs.gBlockSize ≤ 4096)
    (hsec : 512 * (fs.gBlockSize / 512) = fs.gBlockSize) (hid : blockId ≤ 0x100000)
    (h : EntriesAt (fsBlock fs disk blockId) fs.gBlockSize 0 es) :
    ∃ buf, scanBlock fs disk visit blockId st =
      .ok ({ st with blockBuf := buf, result := (scan f (es.filter DirEntry.live) st.result).1 },
        (scan f (es.filter DirEntry.live) st.result).2) := by
  obtain ⟨buf, hread, hbuf⟩ := readFsBlock_brings disk st.blockBuf 0
    hid hsize hsec
  have hsame : SameOn (fsBlock fs disk blockId) buf 0 fs.gBlockSize := by
    intro x _ hx
    have := hbuf x hx
    rwa [Nat.zero_add] at this
  refine ⟨buf, ?_⟩
  rw [scanBlock, hread]
  simp only [bind, Except.bind]
  rw [scanEntries_spec hv h hsame hsize (by omega)]

/-- The loop over the blocks goes through the live entries of the directory. -/
theorem scanBlocks_spec (hv : Sees visit f) (hsize : fs.gBlockSize ≤ 4096)
    (hsec : 512 * (fs.gBlockSize / 512) = fs.gBlockSize)
    (hcount : blockCountOf fs inode ≤ 12 + fs.gBlockSize / 4)
    (hid : 12 < blockCountOf fs inode → iBlock inode 12 ≤ 0x100000)
    {st : Scan σ} (hr : IndirectReady L fs disk inode st)
    (hblk : blk + left = blockCountOf fs inode)
    (h : BlocksHold (fsBlock fs disk) fs.gBlockSize
      ((List.range' blk left).map (fileBlock (fsBlock fs disk) inode)) es) :
    ∃ st', scanBlocks L fs disk visit inode left blk st = .ok st' ∧
      st'.result = (scan f (es.filter DirEntry.live) st.result).1 := by
  induction left generalizing blk st es with
  | zero =>
    cases h
    exact ⟨st, rfl, rfl⟩
  | succ left ih =>
    obtain ⟨st₁, blockId, hblock, hres, hr₁, hfile⟩ :=
      blockIdOf_spec hr hsec (by omega : blk < _) hcount hid
    rw [scanBlocks, hblock, ← hres]
    rcases hfile with rfl | ⟨rfl, hdirect, hzero⟩
    · rw [List.range'_succ, List.map_cons] at h
      generalize hfb : fileBlock (fsBlock fs disk) inode blk = blockId at h
      cases h with
      | hole h => exact ih hr₁ (by omega) h
      | @block blockId es ids es' hne hle hes h =>
        obtain ⟨buf, hscan⟩ := scanBlock_spec hv st₁ hsize hsec hle hes
        rw [List.filter_append, scan_append]
        simp only [bind, Except.bind, hscan]
        split
        · exact ⟨_, rfl, rfl⟩
        · exact ih ⟨hr₁.room, hr₁.held⟩ (by omega) h
    · -- without an indirect block the rest of the directory is one hole
      obtain rfl := h.holes (by
        intro id hid
        obtain ⟨k, hk, rfl⟩ := List.mem_map.1 hid
        have := (List.mem_range'_1.1 hk).1
        rw [fileBlock, if_neg (by omega), if_pos hzero])
      exact ⟨st₁, rfl, rfl⟩

/-- A size that the direct and the indirect blocks reach does not wrap the block count. -/
theorem blockCount_bounds
    (hbs : fs.gBlockSize = 1024 ∨ fs.gBlockSize = 2048 ∨ fs.gBlockSize = 4096)
    (hreach : iSize ino ≤ (12 + fs.gBlockSize / 4) * fs.gBlockSize) :
    0 < fs.gBlockSize ∧ fs.gBlockSize ≤ 4096 ∧ 512 * (fs.gBlockSize / 512) = fs.gBlockSize ∧
      blockCountOf fs ino ≤ 12 + fs.gBlockSize / 4 ∧
      wrap (iSize ino + fs.gBlockSize - 1) / fs.gBlockSize = blockCountOf fs ino := by
  rw [blockCountOf, wrap]
  rcases hbs with hbs | hbs | hbs
  all_goals
    rw [hbs] at hreach ⊢
    omega

/-- If the directory has an indirect block, `kmalloc` has a buffer for it. -/
def IndirectFits (L : Layout) (fs : FileSystem) (ino : Mem) (heap : MemoryState) : Prop :=
  12 < blockCountOf fs ino → iBlock ino 12 ≠ 0 →
    ∃ p heap', kmalloc L heap fs.gBlockSize = some (p, heap') ∧ p ≠ 0

/-- Each scanner goes through the live entries of the directory. -/
theorem scanDirectory_spec (hv : Sees visit f)
    (hbs : fs.gBlockSize = 1024 ∨ fs.gBlockSize = 2048 ∨ fs.gBlockSize = 4096)
    (hreach : iSize ino ≤ (12 + fs.gBlockSize / 4) * fs.gBlockSize)
    (hind : 12 < blockCountOf fs ino → iBlock ino 12 ≤ 0x100000)
    (hblocks : BlocksHold (fsBlock fs disk) fs.gBlockSize
      ((List.range (blockCountOf fs ino)).map (fileBlock (fsBlock fs disk) ino)) entries)
    (hk : IndirectFits L fs ino heap) (blockBuf : Mem) (result : σ) :
    ∃ st, scanDirectory L fs disk visit ino ⟨heap, blockBuf, 0, result⟩ = .ok st ∧
      st.result = (scan f (entries.filter DirEntry.live) result).1 := by
  obtain ⟨hpos, hmax, hsec, hfull, hwrap⟩ := blockCount_bounds hbs hreach
  have hr : IndirectReady L fs disk ino (⟨heap, blockBuf, 0, result⟩ : Scan σ) :=
    ⟨fun _ hlt hne => hk hlt hne, fun hne => (hne rfl).elim⟩
  rw [scanDirectory, if_neg (by omega), hwrap]
  by_cases hempty : blockCountOf fs ino = 0
  · rw [hempty] at hblocks
    cases hblocks
    simp only [if_pos hempty]
    exact ⟨_, rfl, rfl⟩
  · rw [List.range_eq_range'] at hblocks
    obtain ⟨st, hscan, hres⟩ := scanBlocks_spec hv hmax hsec hfull hind hr (Nat.zero_add _) hblocks
    simp only [if_neg hempty, hscan, Except.map]
    refine ⟨_, rfl, ?_⟩
    split <;> exact hres

end

section
variable {σ : Type} {ino inode : Mem} (L : Layout) (fs : FileSystem) (disk : Disk)

/-- The loop over the blocks looks only at the thirteen ids. -/
theorem scanBlocks_congr (h : ∀ k ≤ 12, iBlock inode k = iBlock ino k) (visit : Visit σ)
    (left blk : Nat) (st : Scan σ) :
    scanBlocks L fs disk visit inode left blk st = scanBlocks L fs disk visit ino left blk st := by
  have hopen : ∀ st : Scan σ, openIndirect L fs disk inode st = openIndirect L fs disk ino st := by
    intro st
    rw [openIndirect, openIndirect, h 12 (Nat.le_refl 12)]
  have hid : ∀ blk (st : Scan σ), blockIdOf L fs disk inode blk st =
      blockIdOf L fs disk ino blk st := by
    intro blk st
    rw [blockIdOf, blockIdOf, hopen, h 12 (Nat.le_refl 12)]
    by_cases hblk : blk < 12
    · rw [if_pos hblk, if_pos hblk, h blk (by omega)]
    · rw [if_neg hblk, if_neg hblk]
  induction left generalizing blk st with
  | zero => rfl
  | succ left ih => simp only [scanBlocks, hid, ih]

/-- A scan looks at no more of the struct than its first 92 bytes. -/
theorem scanDirectory_congr (h : SameOn ino inode 0 92) (visit : Visit σ) (st : Scan σ) :
    scanDirectory L fs disk visit inode st = scanDirectory L fs disk visit ino st := by
  have hsize : iSize inode = iSize ino := h.load32 (by omega) (by omega)
  simp only [scanDirectory, scanBlocks_congr L fs disk fun _ => iBlock_congr h, hsize]

end

/-- The scanners, when the struct holds what they look at of the inode of a directory. -/
theorem scanners_eq {fs : FileSystem} (hn : 1 ≤ dir ∧ dir ≤ fs.gSb.inodesCount)
    (hread : readInode fs disk dir zeroed = .ok ino) (hdir : isDirectory ino = true)
    (hlo : 92 ≤ fs.gInodeSize) (hhi : fs.gInodeSize ≤ 128) (L : Layout) (heap : MemoryState)
    (blockBuf inode : Mem) :
    (∀ name, findInodeInDir L disk heap blockBuf inode fs dir name =
      scanDirectory L fs disk (visitFind name) ino ⟨heap, blockBuf, 0, 0⟩) ∧
    (∀ name, ext2Lookup L disk heap blockBuf inode fs dir name =
      scanDirectory L fs disk (visitLookup name) ino ⟨heap, blockBuf, 0, 0⟩) ∧
    ∀ out, ext2Ls L disk heap blockBuf inode (some fs) dir out =
      scanDirectory L fs disk visitLs ino ⟨heap, blockBuf, 0, out⟩ := by
  obtain ⟨inode', hread', hsame⟩ := readInode_congr hn hread inode
  replace hsame := hsame.mono (Nat.le_refl 0) hlo
  have hdir' : isDirectory inode' = true := by
    rw [isDirectory, hsame.load16 (by omega) (by omega)]
    exact hdir
  rw [← readLocalInode_of_fits hhi] at hread'
  refine ⟨fun name => ?_, fun name => ?_, fun out => ?_⟩
  · simp only [findInodeInDir, hread', bind, Except.bind, if_pos hdir']
    exact scanDirectory_congr L fs disk hsame _ _
  · simp only [ext2Lookup, hread', bind, Except.bind, if_pos hdir']
    exact scanDirectory_congr L fs disk hsame _ _
  · simp only [ext2Ls, hread', bind, Except.bind, if_pos hdir']
    exact scanDirectory_congr L fs disk hsame _ _

/-- The inode number that a directory has under a name, 0 if it has none. -/
def inodeNamed (entries : List DirEntry) (name : Text) : Nat :=
  (((entries.filter DirEntry.live).find? fun e => e.name = name.chars).map DirEntry.inode).getD 0

/-- What a listing shows of an entry, on the screen and on the serial line. -/
def lsLine (e : DirEntry) : List UInt8 :=
  ascii (if e.fileType = 2 then "<DIR> " else "      ") ++ e.name ++ ascii "\n"

def lsLog (e : DirEntry) : List UInt8 := ascii "[ls] entry=" ++ e.name ++ ascii "\n"

def listed (out : Console) (e : DirEntry) : Console :=
  ⟨out.vga ++ lsLine e, out.serial ++ lsLog e⟩

theorem foldl_listed (es : List DirEntry) (out : Console) :
    es.foldl listed out = ⟨out.vga ++ es.flatMap lsLine, out.serial ++ es.flatMap lsLog⟩ := by
  induction es generalizing out with
  | nil => simp
  | cons e es ih => simp [ih, listed]

theorem nameBuf_chars (hnul : 0 ∉ (readDirEntry buf offset).name) :
    (nameBuf buf offset (entryNameLen buf offset)).chars = (readDirEntry buf offset).name :=
  Text.ofBytes_chars hnul

theorem visitFind_sees (name : Text) : Sees (visitFind name) fun e result =>
    if decide (e.name = name.chars) then (e.inode, true) else (result, false) := by
  intro buf offset result _
  have hiff : strncmp (entryName buf offset) name.char (entryNameLen buf offset) = 0 ∧
      entryNameLen buf offset = strlen name ↔ (readDirEntry buf offset).name = name.chars := by
    have hcmp := strncmp_eq_zero_iff buf (offset + 8) name.no_nul
    constructor
    · rintro ⟨hzero, hlen⟩
      rw [hlen] at hzero
      rw [readDirEntry, hlen]
      exact hcmp.1 hzero
    · intro heq
      have hlen : entryNameLen buf offset = strlen name := by
        rw [strlen, ← heq, readDirEntry, length_bytesAt]
      rw [readDirEntry, hlen] at heq
      rw [hlen]
      exact ⟨hcmp.2 heq, rfl⟩
  exact if_congr (hiff.trans decide_eq_true_iff.symm) rfl rfl

theorem visitLookup_sees (name : Text) : Sees (visitLookup name) fun e result =>
    if decide (e.name = name.chars) then (e.inode, true) else (result, false) := by
  intro buf offset result hnul
  have hiff : strcmp (nameBuf buf offset (entryNameLen buf offset)) name = 0 ↔
      (readDirEntry buf offset).name = name.chars := by
    rw [strcmp_eq_zero_iff, nameBuf_chars hnul]
  exact if_congr (hiff.trans decide_eq_true_iff.symm) rfl rfl

theorem visitLs_sees : Sees visitLs fun e out => (listed out e, false) := by
  intro buf offset out hnul
  have hlen : ¬ 255 < entryNameLen buf offset := by
    have := (buf (offset + 6)).toNat_lt
    rw [entryNameLen]
    omega
  simp only [visitLs, if_neg hlen, nameBuf_chars hnul, listed, lsLine, lsLog, vgaPuts, serialPuts,
    List.append_assoc]
  rfl

end KernelCustom
