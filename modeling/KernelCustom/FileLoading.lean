import KernelCustom.DirectoryAgreement
import KernelCustom.FileContents

namespace KernelCustom
open Word32 ByteStore
set_option autoImplicit true

/-- The first blocks of the file are in memory, and what is behind them is as it was. -/
structure Load.Exact (fs : FileSystem) (disk : Disk) (ids : Nat → Nat) (dest : Mem) (blk : Nat)
    (st : Load) : Prop where
  holds : st.Holds fs disk ids blk
  frame : ∀ k, fs.gBlockSize * blk ≤ k → st.dest k = dest k

/-- `read_fs_block` accepts the ids of a range of blocks. -/
def Accepts (ids : Nat → Nat) (lo hi : Nat) : Prop := ∀ b, lo ≤ b → b < hi → ids b ≤ 0x100000

/-- A part of the loops loads the blocks up to `stop`, or it hangs at an id that is too high. -/
structure LoadsTo (fs : FileSystem) (disk : Disk) (ids : Nat → Nat) (dest : Mem) (blk stop : Nat)
    (x : Except Stuck Load) : Prop where
  ok : Accepts ids blk stop → ∃ st, x = .ok st ∧ st.Exact fs disk ids dest stop
  hang : ¬ Accepts ids blk stop → x = .error .hang

/-- The number of blocks of `load_file_to_memory`, with the arithmetic of the code. -/
def totalBlocks (fs : FileSystem) (ino : Mem) : Nat :=
  wrap (iSize ino + fs.gBlockSize - 1) / fs.gBlockSize

/-- `read_fs_block` accepts the ids of a file of that many blocks, as far as they reach. -/
structure IdsAccepted (fs : FileSystem) (ino : Mem) (ids : Nat → Nat) (t : Nat) : Prop where
  indirect : 12 < t → iBlock ino 12 ≤ 0x100000
  blocks : Accepts ids 0 (min t (12 + fs.gBlockSize / 4))

/-- The ids that `load_file_to_memory` gives to `read_fs_block` for that many blocks. -/
abbrev BlocksAccepted (fs : FileSystem) (disk : Disk) (ino : Mem) (t : Nat) : Prop :=
  IdsAccepted fs ino (fileBlock (fsBlock fs disk) ino) t

/-- The block ids of an inode reach that many blocks. -/
def Reaches (fs : FileSystem) (ino : Mem) (t : Nat) : Prop :=
  t ≤ 12 ∨ iBlock ino 12 ≠ 0 ∧ t ≤ 12 + fs.gBlockSize / 4

instance : Decidable (Reaches fs ino t) := inferInstanceAs (Decidable (_ ∨ _))

theorem Reaches.count_le (h : Reaches fs ino t) : t ≤ 12 + fs.gBlockSize / 4 := by
  rw [Reaches] at h
  omega

theorem totalBlocks_eq (hfit : iSize ino + fs.gBlockSize - 1 < 4294967296) :
    totalBlocks fs ino = blockCountOf fs ino := by
  rw [totalBlocks, wrap_of_lt hfit, blockCountOf]

theorem block_byte_lt {b t x n : Nat} (hb : b < t) (hx : x < n) : n * b + x < t * n := by
  have hmul := Nat.mul_le_mul_left n hb
  rw [Nat.mul_succ] at hmul
  rw [Nat.mul_comm t n]
  omega

/-- What `load_file_to_memory` does behind the loop over the direct blocks. -/
def loadRest (fs : FileSystem) (disk : Disk) (ino : Mem) (t : Nat) (st : Load) :
    Except Stuck (Bool × Mem) :=
  if st.blocksLoaded < t then
    if iBlock ino 12 = 0 then .ok (false, st.dest)
    else if 4096 < fs.gBlockSize then .ok (false, st.dest)
    else do
      let entries ← readFsBlock fs disk (iBlock ino 12) zeroed 0 4096
      let st ← loadIndirect fs disk entries t (fs.gBlockSize / 4) 0 st
      .ok (decide (¬ st.blocksLoaded < t), st.dest)
  else .ok (true, st.dest)

/-- An answer with the file in memory, if it is `true`, and with nothing written behind it. -/
def LoadAnswers (fs : FileSystem) (disk : Disk) (ino dest : Mem) (t : Nat)
    (x : Except Stuck (Bool × Mem)) : Prop :=
  ∃ dest', x = .ok (decide (Reaches fs ino t), dest') ∧
    (Reaches fs ino t → ∀ k < fs.gBlockSize * t,
      dest' k = fileByte (fsBlock fs disk) fs.gBlockSize (fileBlock (fsBlock fs disk) ino) k) ∧
    ∀ k, fs.gBlockSize * t ≤ k → dest' k = dest k

/-- What loading the file of an inode is for: its blocks are those at their places on the drive. -/
def LoadsExactly (fs : FileSystem) (disk : Disk) (n : Nat) (inode ino : Mem) : Prop :=
  ∀ dest, ∃ answer dest', loadFileToMemory fs disk n inode dest = .ok (answer, dest') ∧
    (answer = true ↔ blockCountOf fs ino ≤ 12 ∨
      iBlock ino 12 ≠ 0 ∧ blockCountOf fs ino ≤ 12 + fs.gBlockSize / 4) ∧
    (answer = true → ∀ k < blockCountOf fs ino * fs.gBlockSize,
      dest' k = fileByte (placedBlock fs disk) fs.gBlockSize
        (fileBlock (placedBlock fs disk) ino) k) ∧
    ∀ k, blockCountOf fs ino * fs.gBlockSize ≤ k → dest' k = dest k

theorem Accepts.empty (ids : Nat → Nat) (blk : Nat) : Accepts ids blk blk :=
  fun _ hlo hhi => absurd hhi (Nat.not_lt.2 hlo)

theorem accepts_succ_iff (h : blk < stop) :
    Accepts ids blk stop ↔ ids blk ≤ 0x100000 ∧ Accepts ids (blk + 1) stop := by
  constructor
  · exact fun hall => ⟨hall blk (Nat.le_refl _) h, fun b hlo => hall b (by omega)⟩
  · rintro ⟨hid, hall⟩ b hlo hhi
    rcases Nat.eq_or_lt_of_le hlo with rfl | hlt
    · exact hid
    · exact hall b hlt hhi

theorem Accepts.mono (h : Accepts ids lo hi) (hle : hi' ≤ hi) : Accepts ids lo hi' :=
  fun b hlo hhi => h b hlo (by omega)

/-- A file without an indirect block needs its direct ids only. -/
theorem blocksAccepted_direct_iff (h : t ≤ 12 ∨ iBlock ino 12 = 0) :
    BlocksAccepted fs disk ino t ↔ Accepts (fileBlock (fsBlock fs disk) ino) 0 (min t 12) := by
  constructor
  · exact fun hb => hb.blocks.mono (by omega)
  · intro hdirect
    refine ⟨fun hlt => by omega, fun b hlo hhi => ?_⟩
    by_cases hb : b < 12
    · exact hdirect b hlo (by omega)
    · rw [fileBlock, if_neg hb, if_pos (by omega)]
      exact Nat.zero_le _

theorem blocksAccepted_indirect_iff (h : 12 < t) :
    BlocksAccepted fs disk ino t ↔ Accepts (fileBlock (fsBlock fs disk) ino) 0 12 ∧
      iBlock ino 12 ≤ 0x100000 ∧
      Accepts (fileBlock (fsBlock fs disk) ino) 12 (min t (12 + fs.gBlockSize / 4)) := by
  constructor
  · exact fun hb => ⟨hb.blocks.mono (by omega), hb.indirect h,
      fun b hlo => hb.blocks b (Nat.zero_le b)⟩
  · rintro ⟨hdirect, hind, hrest⟩
    refine ⟨fun _ => hind, fun b hlo hhi => ?_⟩
    by_cases hb : b < 12
    · exact hdirect b hlo hb
    · exact hrest b (by omega) hhi

section
variable {fs : FileSystem} {disk : Disk} {ids : Nat → Nat} {dest : Mem}
  (hsec : 512 * (fs.gBlockSize / 512) = fs.gBlockSize)
  (hpos : 0 < fs.gBlockSize) (hmax : fs.gBlockSize ≤ 4096)
include hsec hpos hmax

theorem loadBlock_exact {st : Load} (h : st.Exact fs disk ids dest blk) (hblk : blk < 1036)
    (hid : ids blk ≤ 0x100000) :
    ∃ st', loadBlock fs disk (ids blk) st = .ok st' ∧ st'.Exact fs disk ids dest (blk + 1) := by
  have hfit : fs.gBlockSize * blk ≤ 4096 * 1035 := Nat.mul_le_mul hmax (by omega)
  have hsucc : fs.gBlockSize * (blk + 1) = fs.gBlockSize * blk + fs.gBlockSize := Nat.mul_succ _ _
  have hptr := h.holds.ptr
  have hok : ∃ st', loadBlock fs disk (ids blk) st = .ok st' ∧
      ∀ k, fs.gBlockSize * (blk + 1) ≤ k → st'.dest k = st.dest k := by
    rw [loadBlock]
    by_cases hz : ids blk = 0
    · rw [if_pos hz]
      refine ⟨_, rfl, fun k hk => ?_⟩
      dsimp only
      rw [memset_apply _ _ _ (by omega), if_neg (by omega)]
    · rw [if_neg hz, readFsBlock_of_le hid (Nat.le_refl _)]
      refine ⟨_, rfl, fun k hk => ?_⟩
      dsimp only
      rw [diskRead, hsec, if_neg (by omega)]
  obtain ⟨st', hok, hframe⟩ := hok
  refine ⟨st', hok, loadBlock_holds hsec hpos hmax h.holds hblk hok, fun k hk => ?_⟩
  rw [hframe k hk, h.frame k (by omega)]

/-- One block, and what is behind it. -/
theorem LoadsTo.step {st : Load} {f : Load → Except Stuck Load}
    (h : st.Exact fs disk ids dest blk) (hblk : blk < 1036) (hlt : blk < stop)
    (hrest : ∀ st', st'.Exact fs disk ids dest (blk + 1) →
      LoadsTo fs disk ids dest (blk + 1) stop (f st')) :
    LoadsTo fs disk ids dest blk stop (loadBlock fs disk (ids blk) st >>= f) := by
  by_cases hid : ids blk ≤ 0x100000
  · obtain ⟨st', hok, hexact⟩ := loadBlock_exact hsec hpos hmax h hblk hid
    rw [hok]
    constructor
    · exact fun hall => (hrest st' hexact).ok ((accepts_succ_iff hlt).1 hall).2
    · exact fun hnot => (hrest st' hexact).hang
        fun hall => hnot ((accepts_succ_iff hlt).2 ⟨hid, hall⟩)
  · have hhang : loadBlock fs disk (ids blk) st = .error .hang := by
      rw [loadBlock, if_neg (by omega), readFsBlock, if_pos (by omega)]
      rfl
    rw [hhang]
    constructor
    · exact fun hall => absurd (hall blk (Nat.le_refl _) hlt) hid
    · exact fun _ => rfl

theorem loadDirect_loads {ino : Mem} {st : Load} (hids : ∀ b, b < 12 → iBlock ino b = ids b)
    (h : st.Exact fs disk ids dest blk) (hblk : blk + left ≤ 12) :
    LoadsTo fs disk ids dest blk (blk + left) (loadDirect fs disk ino left blk st) := by
  induction left generalizing blk st with
  | zero =>
    exact ⟨fun _ => ⟨st, rfl, h⟩, fun hnot => absurd (Accepts.empty ids blk) hnot⟩
  | succ left ih =>
    rw [loadDirect, hids blk (by omega)]
    refine LoadsTo.step hsec hpos hmax h (by omega) (by omega) fun st' h' => ?_
    have hrest := ih h' (by omega)
    rwa [Nat.add_right_comm, Nat.add_assoc] at hrest

theorem loadIndirect_loads {entries : Mem} {st : Load}
    (hids : ∀ i, i < fs.gBlockSize / 4 → load32 entries (4 * i) = ids (12 + i))
    (h : st.Exact fs disk ids dest (12 + i)) (hi : i + left ≤ fs.gBlockSize / 4)
    (htotal : 12 + i ≤ total) :
    LoadsTo fs disk ids dest (12 + i) (min total (12 + i + left))
      (loadIndirect fs disk entries total left i st) := by
  have hloaded := h.holds.loaded
  induction left generalizing i st with
  | zero =>
    rw [Nat.add_zero, Nat.min_eq_right htotal]
    exact ⟨fun _ => ⟨st, rfl, h⟩, fun hnot => absurd (Accepts.empty ids (12 + i)) hnot⟩
  | succ left ih =>
    rw [loadIndirect]
    by_cases hlt : st.blocksLoaded < total
    · rw [if_pos hlt, hids i (by omega)]
      refine LoadsTo.step hsec hpos hmax h (by omega) (by omega) fun st' h' => ?_
      rw [Nat.add_assoc] at h'
      have hrest := ih h' (by omega) (by omega) h'.holds.loaded
      have hstop : 12 + (i + 1) + left = 12 + i + (left + 1) := by omega
      rw [hstop] at hrest
      exact hrest
    · have hstop : min total (12 + i + (left + 1)) = 12 + i := by omega
      rw [if_neg hlt, hstop]
      exact ⟨fun _ => ⟨st, rfl, h⟩, fun hnot => absurd (Accepts.empty ids (12 + i)) hnot⟩

omit hsec hpos hmax in
/-- A load that has gone up to some block answers whether that was the last. -/
theorem Load.Exact.answers {st : Load}
    (h : st.Exact fs disk (fileBlock (fsBlock fs disk) ino) dest blk)
    (hle : blk ≤ t) (hreach : Reaches fs ino t ↔ blk = t) :
    LoadAnswers fs disk ino dest t (.ok (decide (¬ st.blocksLoaded < t), st.dest)) := by
  have hloaded := h.holds.loaded
  refine ⟨st.dest, ?_, fun hr => ?_, fun k hk => h.frame k ?_⟩
  · rw [decide_eq_decide.2 (show ¬ st.blocksLoaded < t ↔ Reaches fs ino t by
      rw [hreach]
      omega)]
  · rw [← hreach.1 hr]
    exact h.holds.bytes
  · exact (Nat.mul_le_mul_left _ hle).trans hk

theorem loadRest_indirect {st : Load}
    (h : st.Exact fs disk (fileBlock (fsBlock fs disk) ino) dest 12)
    (ht : 12 < t) (hne : iBlock ino 12 ≠ 0) :
    (iBlock ino 12 ≤ 0x100000 ∧
        Accepts (fileBlock (fsBlock fs disk) ino) 12 (min t (12 + fs.gBlockSize / 4)) →
      LoadAnswers fs disk ino dest t (loadRest fs disk ino t st)) ∧
    (¬ (iBlock ino 12 ≤ 0x100000 ∧
        Accepts (fileBlock (fsBlock fs disk) ino) 12 (min t (12 + fs.gBlockSize / 4))) →
      loadRest fs disk ino t st = .error .hang) := by
  have hloaded := h.holds.loaded
  rw [loadRest, if_pos (by omega), if_neg hne, if_neg (by omega)]
  by_cases hid : iBlock ino 12 ≤ 0x100000
  · have hread : ∃ entries, readFsBlock fs disk (iBlock ino 12) zeroed 0 4096 = .ok entries :=
      ⟨_, readFsBlock_of_le hid hmax⟩
    obtain ⟨entries, hread⟩ := hread
    have hrest : LoadsTo fs disk (fileBlock (fsBlock fs disk) ino) dest 12
        (min t (12 + fs.gBlockSize / 4))
        (loadIndirect fs disk entries t (fs.gBlockSize / 4) 0 st) :=
      loadIndirect_loads hsec hpos hmax (indirect_entries hsec hne hread) h
        (Nat.zero_add _).le (by omega)
    rw [hread]
    simp only [bind, Except.bind]
    constructor
    · intro hall
      obtain ⟨st', hok, hexact⟩ := hrest.ok hall.2
      rw [hok]
      refine hexact.answers (by omega) ?_
      rw [Reaches]
      omega
    · intro hnot
      rw [hrest.hang fun hall => hnot ⟨hid, hall⟩]
  · rw [readFsBlock, if_pos (by omega)]
    exact ⟨fun hall => absurd hall.1 hid, fun _ => rfl⟩

omit hsec hpos hmax in
theorem loadRest_direct {st : Load}
    (h : st.Exact fs disk (fileBlock (fsBlock fs disk) ino) dest (min t 12))
    (hd : t ≤ 12 ∨ iBlock ino 12 = 0) :
    LoadAnswers fs disk ino dest t (loadRest fs disk ino t st) := by
  have hloaded := h.holds.loaded
  have hreach : Reaches fs ino t ↔ min t 12 = t := by
    rw [Reaches]
    omega
  have hanswer := h.answers (by omega) hreach
  rw [loadRest]
  by_cases hlt : st.blocksLoaded < t
  · rw [if_pos hlt, if_pos (by omega)]
    rwa [decide_eq_false (not_not.2 hlt)] at hanswer
  · rw [if_neg hlt]
    rwa [decide_eq_true hlt] at hanswer

/-- `load_file_to_memory` of a file that is not empty answers when the ids are accepted, and hangs
otherwise. -/
theorem loadFileToMemory_spec (hread : readInode fs disk n inode = .ok ino)
    (hsize : iSize ino ≠ 0) (dest : Mem) :
    (BlocksAccepted fs disk ino (totalBlocks fs ino) →
      LoadAnswers fs disk ino dest (totalBlocks fs ino) (loadFileToMemory fs disk n inode dest)) ∧
    (¬ BlocksAccepted fs disk ino (totalBlocks fs ino) →
      loadFileToMemory fs disk n inode dest = .error .hang) := by
  have hstart : Load.Exact fs disk (fileBlock (fsBlock fs disk) ino) dest 0 ⟨dest, 0, 0⟩ :=
    ⟨⟨(Nat.mul_zero _).symm, rfl, fun b hb => absurd hb (Nat.not_lt_zero b),
      fun k hk => absurd hk (by rw [Nat.mul_zero]; exact Nat.not_lt_zero k)⟩, fun _ _ => rfl⟩
  have hdirect : LoadsTo fs disk (fileBlock (fsBlock fs disk) ino) dest 0
      (0 + min (totalBlocks fs ino) 12)
      (loadDirect fs disk ino (min (totalBlocks fs ino) 12) 0 ⟨dest, 0, 0⟩) :=
    loadDirect_loads hsec hpos hmax (fun b hb => (fileBlock_direct hb).symm) hstart (by omega)
  have hload : loadFileToMemory fs disk n inode dest =
      loadDirect fs disk ino (min (totalBlocks fs ino) 12) 0 ⟨dest, 0, 0⟩ >>=
        loadRest fs disk ino (totalBlocks fs ino) := by
    rw [loadFileToMemory, hread]
    simp only [bind, Except.bind, if_neg (Nat.pos_iff_ne_zero.1 hpos), if_neg hsize]
    rfl
  rw [hload]
  generalize totalBlocks fs ino = t at hdirect ⊢
  rw [Nat.zero_add] at hdirect
  by_cases hd : t ≤ 12 ∨ iBlock ino 12 = 0
  · rw [blocksAccepted_direct_iff hd]
    constructor
    · intro hall
      obtain ⟨st, hok, hexact⟩ := hdirect.ok hall
      rw [hok]
      exact loadRest_direct hexact hd
    · intro hnot
      rw [hdirect.hang hnot]
      rfl
  · obtain ⟨hlt, hne⟩ := not_or.1 hd
    have ht : 12 < t := by omega
    have hmin : min t 12 = 12 := by omega
    rw [hmin] at hdirect ⊢
    rw [blocksAccepted_indirect_iff ht]
    by_cases hall : Accepts (fileBlock (fsBlock fs disk) ino) 0 12
    · obtain ⟨st, hok, hexact⟩ := hdirect.ok hall
      rw [hok, and_iff_right hall]
      exact loadRest_indirect hsec hpos hmax hexact ht hne
    · rw [hdirect.hang hall]
      exact ⟨fun h => absurd h.1 hall, fun _ => rfl⟩

end

section
variable {fs : FileSystem} {disk disk' : Disk} (h : Alike fs disk disk')
include h

theorem Alike.loadBlock (blockId : Nat) (st : Load) :
    loadBlock fs disk' blockId st = loadBlock fs disk blockId st := by
  rw [Alike] at h
  simp only [KernelCustom.loadBlock, h]

theorem Alike.loadDirect (inode : Mem) (left i : Nat) (st : Load) :
    loadDirect fs disk' inode left i st = loadDirect fs disk inode left i st := by
  induction left generalizing i st with
  | zero => rfl
  | succ left ih => simp only [KernelCustom.loadDirect, h.loadBlock, ih]

theorem Alike.loadIndirect (entries : Mem) (total left i : Nat) (st : Load) :
    loadIndirect fs disk' entries total left i st =
      loadIndirect fs disk entries total left i st := by
  induction left generalizing i st with
  | zero => rfl
  | succ left ih => simp only [KernelCustom.loadIndirect, h.loadBlock, ih]

theorem Alike.loadFileToMemory (n : Nat) (inode dest : Mem) :
    loadFileToMemory fs disk' n inode dest = loadFileToMemory fs disk n inode dest := by
  have hread := h.readInode
  rw [Alike] at h
  simp only [KernelCustom.loadFileToMemory, hread, Alike.loadDirect h, Alike.loadIndirect h, h]

end

/-- Drives that are read alike have the same block ids where the kernel looks for them. -/
theorem fileBlock_alike (h : Alike fs disk disk')
    (hsec : 512 * (fs.gBlockSize / 512) = fs.gBlockSize)
    (hind : 12 < t → iBlock ino 12 ≤ 0x100000) (hb : b < min t (12 + fs.gBlockSize / 4)) :
    fileBlock (fsBlock fs disk') ino b = fileBlock (fsBlock fs disk) ino b :=
  fileBlock_same (fun hlt _ => h.fsBlock (hind (by omega)) hsec) (Nat.min_le_right _ _) hb

theorem IdsAccepted.congr (h : IdsAccepted fs ino ids t)
    (hids : ∀ b < min t (12 + fs.gBlockSize / 4), ids' b = ids b) : IdsAccepted fs ino ids' t := by
  refine ⟨h.indirect, fun b hlo hhi => ?_⟩
  rw [hids b hhi]
  exact h.blocks b hlo hhi

section
variable {fs : FileSystem} {disk disk' : Disk} {ino : Mem} {t : Nat}
  (h : BlocksInReach fs disk ino t) (ht : t ≤ 12 + fs.gBlockSize / 4)
include h ht

/-- What the kernel sees of a file whose blocks are in reach is the file. -/
theorem BlocksInReach.fileByte_eq (hk : k < fs.gBlockSize * t) :
    fileByte (fsBlock fs disk) fs.gBlockSize (fileBlock (fsBlock fs disk) ino) k =
      fileByte (placedBlock fs disk) fs.gBlockSize (fileBlock (placedBlock fs disk) ino) k := by
  have hb : k / fs.gBlockSize < t := Nat.div_lt_of_lt_mul hk
  rw [fileByte, fileByte, fileBlock_in_reach h.indirect disk ht hb]
  split
  · rfl
  · next hne => rw [(h.blocks _ hb hne).fsBlock_eq]

theorem BlocksInReach.of_alike (halike : Alike fs disk disk')
    (hsec : 512 * (fs.gBlockSize / 512) = fs.gBlockSize)
    (hind : 12 < t → iBlock ino 12 ≤ 0x100000) : BlocksInReach fs disk' ino t := by
  refine ⟨fun b hb => ?_, h.indirect⟩
  have hsame : fileBlock (placedBlock fs disk') ino b = fileBlock (placedBlock fs disk) ino b := by
    rw [← fileBlock_in_reach h.indirect disk' ht hb,
      fileBlock_alike halike hsec hind (Nat.lt_min.2 ⟨hb, by omega⟩),
      fileBlock_in_reach h.indirect disk ht hb]
  rw [hsame]
  exact h.blocks b hb

end

section
variable {fs : FileSystem} {disk disk' : Disk} {inode ino : Mem} {n : Nat}
  (hbs : fs.gBlockSize = 1024 ∨ fs.gBlockSize = 2048 ∨ fs.gBlockSize = 4096)
include hbs

/-- A file whose ids are accepted where the kernel looks for them, and whose blocks are in reach if
the ids reach all of them, is loaded as it is on the drive. -/
theorem loadFileToMemory_exact (hread : readInode fs disk n inode = .ok ino)
    (hsize : 0 < iSize ino) (hfit : iSize ino + fs.gBlockSize - 1 < 4294967296)
    (hids : BlocksAccepted fs disk ino (blockCountOf fs ino))
    (hreach : Reaches fs ino (blockCountOf fs ino) →
      BlocksInReach fs disk ino (blockCountOf fs ino)) : LoadsExactly fs disk n inode ino := by
  intro dest
  obtain ⟨hok, -⟩ := loadFileToMemory_spec (by omega) (by omega) (by omega) hread
    (by omega) dest
  rw [totalBlocks_eq hfit] at hok
  obtain ⟨dest', hload, hbytes, hframe⟩ := hok hids
  refine ⟨_, dest', hload, decide_eq_true_iff, fun hans k hk => ?_, fun k hk => ?_⟩
  · have hr : Reaches fs ino (blockCountOf fs ino) := of_decide_eq_true hans
    rw [Nat.mul_comm] at hk
    rw [hbytes hr k hk, (hreach hr).fileByte_eq hr.count_le hk]
  · rw [Nat.mul_comm] at hk
    exact hframe k hk

/-- A load that comes back has been given ids that are accepted. -/
theorem LoadsExactly.accepted (h : LoadsExactly fs disk n inode ino)
    (hread : readInode fs disk n inode = .ok ino) (hsize : 0 < iSize ino)
    (hfit : iSize ino + fs.gBlockSize - 1 < 4294967296) :
    BlocksAccepted fs disk ino (blockCountOf fs ino) := by
  obtain ⟨-, hhang⟩ := loadFileToMemory_spec (by omega) (by omega) (by omega) hread
    (by omega) zeroed
  rw [totalBlocks_eq hfit] at hhang
  by_contra hids
  obtain ⟨answer, dest', hload, -⟩ := h zeroed
  rw [hhang hids] at hload
  cases hload

omit hbs in
/-- A file that is loaded exactly from drives that are read alike is the same on them. -/
theorem LoadsExactly.same_bytes (h : LoadsExactly fs disk n inode ino)
    (h' : LoadsExactly fs disk' n inode ino) (halike : Alike fs disk disk')
    (hreach : Reaches fs ino (blockCountOf fs ino)) (hk : k < blockCountOf fs ino * fs.gBlockSize) :
    fileByte (placedBlock fs disk') fs.gBlockSize (fileBlock (placedBlock fs disk') ino) k =
      fileByte (placedBlock fs disk) fs.gBlockSize (fileBlock (placedBlock fs disk) ino) k := by
  obtain ⟨answer, dest, hload, hans, hbytes, -⟩ := h zeroed
  obtain ⟨answer', dest', hload', hans', hbytes', -⟩ := h' zeroed
  rw [halike.loadFileToMemory, hload] at hload'
  cases hload'
  rw [← hbytes (hans.2 hreach) k hk, hbytes' (hans.2 hreach) k hk]

end

theorem namingDisk_accepted (disk : Disk) (hne : iBlock ino 12 ≠ 0)
    (h : IdsAccepted fs ino (fileBlock (placedBlock fs disk) ino) t) (hid : blockId ≤ 0x100000) :
    IdsAccepted fs ino (fileBlock (placedBlock fs (namingDisk fs disk ino blockId)) ino) t := by
  refine ⟨h.indirect, fun b hlo hhi => ?_⟩
  by_cases hb : b < 12
  · have hsame := h.blocks b hlo hhi
    rw [fileBlock_direct hb] at hsame ⊢
    exact hsame
  · rw [namingDisk_block fs disk hne (by omega) hb (by omega)]
    split
    · exact hid
    · exact Nat.zero_le _

section
variable {fs : FileSystem} {disk : Disk} {inode ino : Mem} {n : Nat}
  (hbs : fs.gBlockSize = 1024 ∨ fs.gBlockSize = 2048 ∨ fs.gBlockSize = 4096)
  (hids : IdsAccepted fs ino (fileBlock (placedBlock fs disk) ino) (blockCountOf fs ino))
  (hreach : Reaches fs ino (blockCountOf fs ino))
  (hall : ∀ disk', Alike fs disk disk' →
    IdsAccepted fs ino (fileBlock (placedBlock fs disk') ino) (blockCountOf fs ino) →
    LoadsExactly fs disk' n inode ino)
include hbs hids hreach hall

/-- An indirect block out of reach can name nothing or itself as the first block behind the direct
ones, and the load is the same. -/
theorem indirect_in_reach (hlt : 12 < blockCountOf fs ino) (hne : iBlock ino 12 ≠ 0) :
    InReach fs (iBlock ino 12) := by
  by_contra hfar
  have hle := hids.indirect hlt
  have halike : ∀ blockId, Alike fs disk (namingDisk fs disk ino blockId) :=
    fun blockId => alike_replaced hbs disk hfar _
  have hexact : ∀ blockId ≤ 0x100000,
      LoadsExactly fs (namingDisk fs disk ino blockId) n inode ino :=
    fun blockId hid => hall _ (halike blockId) (namingDisk_accepted disk hne hids hid)
  have hfirst : ∀ blockId < 4294967296,
      fileBlock (placedBlock fs (namingDisk fs disk ino blockId)) ino 12 = blockId :=
    fun blockId hid => namingDisk_block fs disk hne hid (Nat.lt_irrefl 12) (by omega)
  have hzero : SameOn zeroed (store32 zeroed 0 (iBlock ino 12)) 0 4 := by
    intro x hlo hx
    have hk : fs.gBlockSize * 12 + x < blockCountOf fs ino * fs.gBlockSize :=
      block_byte_lt hlt (by omega)
    have hbyte := (hexact 0 (Nat.zero_le _)).same_bytes (hexact _ hle)
      ((halike 0).symm.trans (halike (iBlock ino 12))) hreach hk
    rw [fileByte_of_block (by omega), fileByte_of_block (by omega), hfirst _ (by omega),
      hfirst 0 (by decide), if_neg hne, if_pos rfl, namingDisk,
      placedBlock_replaced fs disk _ _ x hlo (by omega)] at hbyte
    exact hbyte
  have hload := hzero.load32 (Nat.le_refl 0) (Nat.le_refl 4)
  rw [load32_store32_self zeroed (by omega)] at hload
  exact hne hload

/-- A block out of reach can hold anything, and the load is the same. -/
theorem block_in_reach
    (hind : 12 < blockCountOf fs ino → iBlock ino 12 ≠ 0 → InReach fs (iBlock ino 12))
    (hb : b < blockCountOf fs ino) (hne : fileBlock (placedBlock fs disk) ino b ≠ 0) :
    InReach fs (fileBlock (placedBlock fs disk) ino b) := by
  by_contra hfar
  generalize hid : fileBlock (placedBlock fs disk) ino b = far at hne hfar
  let filled c := replaceBlock fs disk far fun _ => c
  have halike : ∀ c, Alike fs disk (filled c) := fun c => alike_replaced hbs disk hfar _
  have hblocks : ∀ c, ∀ b < blockCountOf fs ino,
      fileBlock (placedBlock fs (filled c)) ino b = fileBlock (placedBlock fs disk) ino b := by
    intro c b hb
    refine fileBlock_same (fun hlt hne => ?_) hreach.count_le hb
    have hother : iBlock ino 12 ≠ far := fun heq => hfar (heq ▸ hind hlt hne)
    exact placedBlock_replaced_other hbs disk hother _
  have hexact : ∀ c, LoadsExactly fs (filled c) n inode ino :=
    fun c => hall _ (halike c) (hids.congr fun b hb => hblocks c b (by omega))
  have hbyte : ∀ c, fileByte (placedBlock fs (filled c)) fs.gBlockSize
      (fileBlock (placedBlock fs (filled c)) ino) (fs.gBlockSize * b + 0) = c := by
    intro c
    rw [fileByte_of_block (by omega), hblocks c b hb, hid, if_neg hne,
      placedBlock_replaced fs disk far _ 0 (Nat.le_refl 0) (by omega)]
  have hk : fs.gBlockSize * b + 0 < blockCountOf fs ino * fs.gBlockSize :=
    block_byte_lt hb (by omega)
  have hsame := (hexact 0).same_bytes (hexact 1) ((halike 0).symm.trans (halike 1)) hreach hk
  rw [hbyte, hbyte] at hsame
  cases hsame

end

/-- A file whose size does not wrap the block count and whose ids are accepted is loaded as it is
on the drive, and on every drive that is read alike, exactly when the ids are accepted where the
kernel looks for them and, if they reach all of the file's blocks, these are in reach of the
commands. -/
theorem loadFileToMemory_exact_iff
    (hbs : fs.gBlockSize = 1024 ∨ fs.gBlockSize = 2048 ∨ fs.gBlockSize = 4096)
    (hread : readInode fs disk n inode = .ok ino) (hsize : 0 < iSize ino)
    (hfit : iSize ino + fs.gBlockSize - 1 < 4294967296)
    (hids : IdsAccepted fs ino (fileBlock (placedBlock fs disk) ino) (blockCountOf fs ino)) :
    (∀ disk', Alike fs disk disk' →
        IdsAccepted fs ino (fileBlock (placedBlock fs disk') ino) (blockCountOf fs ino) →
        LoadsExactly fs disk' n inode ino) ↔
      BlocksAccepted fs disk ino (blockCountOf fs ino) ∧
        (Reaches fs ino (blockCountOf fs ino) →
          BlocksInReach fs disk ino (blockCountOf fs ino)) := by
  constructor
  · intro hall
    have hexact := hall disk (Alike.refl fs disk) hids
    refine ⟨hexact.accepted hbs hread hsize hfit, fun hreach => ?_⟩
    have hind := indirect_in_reach hbs hids hreach hall
    exact ⟨fun b hb => block_in_reach hbs hids hreach hall hind hb, hind⟩
  · rintro ⟨haccepted, hblocks⟩ disk' halike -
    have hsec : 512 * (fs.gBlockSize / 512) = fs.gBlockSize := by omega
    exact loadFileToMemory_exact hbs (halike.readInode ▸ hread) hsize hfit
      (haccepted.congr fun b => fileBlock_alike halike hsec haccepted.indirect)
      fun hreach => (hblocks hreach).of_alike hreach.count_le halike hsec hids.indirect

theorem loadFileToMemory_exact_for_h : ∃ fs ino dest', mount twoFilesImage zeroed = .ok fs ∧
    readInode fs twoFilesImage 13 zeroed = .ok ino ∧
    loadFileToMemory fs twoFilesImage 13 zeroed zeroed = .ok (true, dest') ∧
    (∀ k < 2048, dest' k = fileByte (placedBlock fs twoFilesImage) 1024
      (fileBlock (placedBlock fs twoFilesImage) ino) k) ∧
    ∀ k, 2048 ≤ k → dest' k = 0 := by
  obtain ⟨fs, hm, -, hb, -, -, ⟨hino, -⟩, -, hstart⟩ := mount_twoFilesImage
  obtain ⟨ino, hread, -, hsize, hids⟩ := exists_ok hino
  have hcount : blockCountOf fs ino = 2 := by
    rw [blockCountOf, hsize, hb]
  have hmem : ∀ blockAt, ∀ b < 2, fileBlock blockAt ino b ∈ [0, 11] := by
    intro blockAt b hlt
    rw [← hids, fileBlock_direct (by omega), ← fileBlock_direct (by omega)]
    exact List.mem_map_of_mem (List.mem_range.2 hlt)
  have haccepted : ∀ blockAt, IdsAccepted fs ino (fileBlock blockAt ino) (blockCountOf fs ino) := by
    rw [hcount]
    refine fun blockAt => ⟨fun hlt => absurd hlt (by decide), fun b _ hlt => ?_⟩
    rcases List.mem_pair.1 (hmem blockAt b (by omega)) with h | h <;> omega
  have hreach : BlocksInReach fs twoFilesImage ino (blockCountOf fs ino) := by
    rw [hcount]
    refine ⟨fun b hlt hne => ?_, fun hlt => absurd hlt (by decide)⟩
    have hid := (List.mem_pair.1 (hmem (placedBlock fs twoFilesImage) b hlt)).resolve_left hne
    rw [hid, InReach, hstart, hb]
    decide
  have hexact := (loadFileToMemory_exact_iff (.inl hb) hread (by omega) (by omega)
    (haccepted _)).2 ⟨haccepted _, fun _ => hreach⟩
  obtain ⟨answer, dest', hload, hans, hbytes, hframe⟩ :=
    hexact twoFilesImage (Alike.refl _ _) (haccepted _) zeroed
  rw [hcount] at hans hbytes hframe
  obtain rfl : answer = true := hans.2 (.inl (by decide))
  rw [hb] at hbytes hframe
  exact ⟨fs, ino, dest', hm, hread, hload, hbytes rfl, hframe⟩

theorem mount_farImage_file : ∃ fs, mount farImage zeroed = .ok fs ∧ fs.gBlockSize = 1024 ∧
    fs.ext2StartLba = 0x0FFFFFF0 ∧
    (readInode fs farImage 12 zeroed).map (fun ino => decide (iSize ino = 2 ∧ iBlock ino 0 = 9)) =
      .ok true ∧
    (loadFileToMemory fs farImage 12 zeroed zeroed).map (fun r => decide (r.2 0 = 0)) = .ok true :=
  exists_ok (by decide +kernel)

/-- Block 9 of the file `f` has LBA 2 ^ 28 + 2, and the commands for it have LBA 2, where the drive
is empty. -/
theorem load_misses_far_block : ¬ ∀ disk fs, mount disk zeroed = .ok fs →
    ∀ n inode ino, readInode fs disk n inode = .ok ino → 0 < iSize ino →
      iSize ino + fs.gBlockSize - 1 < 4294967296 →
      IdsAccepted fs ino (fileBlock (placedBlock fs disk) ino) (blockCountOf fs ino) →
      LoadsExactly fs disk n inode ino := by
  intro h
  obtain ⟨fs, hm, hb, hstart, hino, hload⟩ := mount_farImage_file
  obtain ⟨ino, hread, hsize, hblock⟩ := exists_ok hino
  obtain ⟨⟨answer, dest⟩, hload, hzero⟩ := exists_ok hload
  have hcount : blockCountOf fs ino = 1 := by rw [blockCountOf, hsize, hb]
  have hid : fileBlock (placedBlock fs farImage) ino 0 = 9 :=
    (fileBlock_direct (by decide)).trans hblock
  have haccepted : IdsAccepted fs ino (fileBlock (placedBlock fs farImage) ino) 1 := by
    refine ⟨fun hlt => absurd hlt (by decide), fun b _ hlt => ?_⟩
    obtain rfl : b = 0 := by omega
    rw [hid]
    decide
  obtain ⟨answer', dest', hload', hans, hbytes, -⟩ :=
    h _ fs hm 12 zeroed ino hread (by omega) (by omega) (hcount ▸ haccepted) zeroed
  rw [hload] at hload'
  cases hload'
  have hbyte := hbytes (hans.2 (.inl (by omega))) (fs.gBlockSize * 0 + 0)
    (by rw [hcount, hb]; decide)
  rw [fileByte_of_block (by omega), hid, if_neg (by decide), placedBlock, hstart, hb] at hbyte
  have hplaced : farImage ((0x0FFFFFF0 + 9 * (1024 / 512)) * 512 + 0) = 0x48 := by decide +kernel
  rw [hplaced] at hbyte
  exact absurd (hbyte.symm.trans hzero) (by decide)

/-- A file that the block ids cannot reach is refused exactly when its size does not wrap the block
count and the ids are accepted; it is said to be loaded exactly when the size does wrap it. -/
theorem load_refuses_iff
    (hbs : fs.gBlockSize = 1024 ∨ fs.gBlockSize = 2048 ∨ fs.gBlockSize = 4096)
    (hread : readInode fs disk n inode = .ok ino)
    (hbig : (12 + fs.gBlockSize / 4) * fs.gBlockSize < iSize ino) (dest : Mem) :
    ((∃ dest', loadFileToMemory fs disk n inode dest = .ok (false, dest')) ↔
      iSize ino + fs.gBlockSize - 1 < 4294967296 ∧
        BlocksAccepted fs disk ino (blockCountOf fs ino)) ∧
    ((∃ dest', loadFileToMemory fs disk n inode dest = .ok (true, dest')) ↔
      ¬ iSize ino + fs.gBlockSize - 1 < 4294967296) := by
  have hlt : iSize ino < 4294967296 := load32_lt ino 4
  obtain ⟨hok, hhang⟩ := loadFileToMemory_spec (by omega) (by omega) (by omega) hread
    (by omega) dest
  by_cases hfit : iSize ino + fs.gBlockSize - 1 < 4294967296
  · have hreach : ¬ Reaches fs ino (blockCountOf fs ino) := by
      have hmore := (blockCountOf_lt_iff hbs ino (12 + fs.gBlockSize / 4)).2
        (by rwa [Nat.mul_comm] at hbig)
      exact fun hreach => Nat.not_le.2 hmore hreach.count_le
    rw [totalBlocks_eq hfit] at hok hhang
    rw [and_iff_right hfit]
    by_cases hids : BlocksAccepted fs disk ino (blockCountOf fs ino)
    · obtain ⟨dest', hload, -⟩ := hok hids
      rw [hload, decide_eq_false hreach]
      refine ⟨iff_of_true ⟨dest', rfl⟩ hids, iff_of_false ?_ (not_not.2 hfit)⟩
      rintro ⟨_, h⟩
      cases h
    · rw [hhang hids]
      refine ⟨iff_of_false ?_ hids, iff_of_false ?_ (not_not.2 hfit)⟩
      all_goals
        rintro ⟨_, h⟩
        cases h
  · have hzero : totalBlocks fs ino = 0 := by
      rw [totalBlocks, wrap]
      rcases hbs with h | h | h
      all_goals
        rw [h] at hfit ⊢
        omega
    have hids : BlocksAccepted fs disk ino 0 :=
      (blocksAccepted_direct_iff (.inl (Nat.zero_le 12))).2 (Accepts.empty _ 0)
    rw [hzero] at hok
    obtain ⟨dest', hload, -⟩ := hok hids
    rw [hload, decide_eq_true (.inl (Nat.zero_le 12))]
    refine ⟨iff_of_false ?_ fun h => hfit h.1, iff_of_true ⟨dest', rfl⟩ hfit⟩
    rintro ⟨_, h⟩
    cases h

/-- A raw image with two files of holes, 12 of 4 GiB less a byte and 13 of 320 KiB. -/
def largeFilesImage : Disk := sparseDisk
  [(1024, 16), (1044, 1), (1064, 16), (1080, 0x53), (1081, 0xEF), (2056, 5),
    (5248, 0xED), (5249, 0x41), (6528, 0xA4), (6529, 0x81), (6532, 0xFF), (6533, 0xFF),
    (6534, 0xFF), (6535, 0xFF), (6656, 0xA4), (6657, 0x81), (6662, 5)]

theorem mount_largeFilesImage : ∃ fs, mount largeFilesImage zeroed = .ok fs ∧
    fs.gBlockSize = 1024 ∧
    (readInode fs largeFilesImage 12 zeroed).map (fun ino => decide (iSize ino = 0xFFFFFFFF)) =
      .ok true ∧
    (loadFileToMemory fs largeFilesImage 12 zeroed zeroed).map (fun r => decide (r.1 = true)) =
      .ok true ∧
    (readInode fs largeFilesImage 13 zeroed).map (fun ino =>
      decide (iSize ino = 0x50000 ∧ ∀ b ∈ List.range 13, iBlock ino b = 0)) = .ok true :=
  exists_ok (by decide +kernel)

theorem load_refuses_holes : ∃ fs dest', mount largeFilesImage zeroed = .ok fs ∧
    loadFileToMemory fs largeFilesImage 13 zeroed zeroed = .ok (false, dest') := by
  obtain ⟨fs, hm, hb, -, -, hino⟩ := mount_largeFilesImage
  obtain ⟨ino, hread, hsize, hholes⟩ := exists_ok hino
  have hhole : ∀ b, b < 13 → iBlock ino b = 0 := fun b hb => hholes b (List.mem_range.2 hb)
  have haccepted : BlocksAccepted fs largeFilesImage ino (blockCountOf fs ino) := by
    rw [blocksAccepted_direct_iff (.inr (hhole 12 (by decide)))]
    intro b _ hlt
    rw [fileBlock_direct (by omega), hhole b (by omega)]
    exact Nat.zero_le _
  have hbig : (12 + fs.gBlockSize / 4) * fs.gBlockSize < iSize ino := by rw [hb, hsize]; decide
  obtain ⟨dest', hload⟩ := (load_refuses_iff (.inl hb) hread hbig zeroed).1.2
    ⟨by omega, haccepted⟩
  exact ⟨fs, dest', hm, hload⟩

/-- The size of file 12 wraps the block count to 0: nothing is loaded, and the answer is `true`. -/
theorem load_accepts_four_gib : ¬ ∀ fs disk n inode ino dest,
    fs.gBlockSize = 1024 ∨ fs.gBlockSize = 2048 ∨ fs.gBlockSize = 4096 →
    readInode fs disk n inode = .ok ino →
    (12 + fs.gBlockSize / 4) * fs.gBlockSize < iSize ino →
    ∃ dest', loadFileToMemory fs disk n inode dest = .ok (false, dest') := by
  intro h
  obtain ⟨fs, -, hb, hino, hload, -⟩ := mount_largeFilesImage
  obtain ⟨ino, hread, hsize⟩ := exists_ok hino
  obtain ⟨⟨_, dest⟩, hload, rfl⟩ := exists_ok hload
  have hbig : (12 + fs.gBlockSize / 4) * fs.gBlockSize < iSize ino := by rw [hb, hsize]; decide
  obtain ⟨dest', hfalse⟩ := h fs _ 12 zeroed ino zeroed (.inl hb) hread hbig
  rw [hload] at hfalse
  cases hfalse

end KernelCustom
