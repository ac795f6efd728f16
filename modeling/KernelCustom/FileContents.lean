import KernelCustom.DirectoryScan
import KernelCustom.MountSafety
import Mathlib.Algebra.Order.BigOperators.Group.List

namespace KernelCustom
open Word32 ByteStore CString
set_option autoImplicit true

/-- `(i_mode & 0xF000) == 0x8000`. -/
def isRegular (inode : Mem) : Bool := load16 inode 0 &&& 0xF000 = 0x8000

/-- The memory from `dest_addr` on, and the counters of `load_file_to_memory`; `current_ptr` is
kept as the distance from `dest_addr`. -/
structure Load where
  dest : Mem
  currentPtr : Nat
  blocksLoaded : Nat

/-- What `ext2_cat` has printed and what it has left to print. -/
structure Cat where
  out : Console
  sizeRemaining : Nat
  blockBuf : Mem

/-- What a call of `ext2_cat` leaves. -/
structure CatRun where
  heap : MemoryState
  dirBlockBuf : Mem
  blockBuf : Mem
  out : Console

section
variable (fs : FileSystem) (disk : Disk)

/-- One block goes to memory; a hole is filled with zeros. -/
def loadBlock (blockId : Nat) (st : Load) : Except Stuck Load :=
  let dest :=
    if blockId = 0 then .ok (memset st.dest st.currentPtr 0 fs.gBlockSize)
    else readFsBlock fs disk blockId st.dest st.currentPtr fs.gBlockSize
  dest.map fun dest => ⟨dest, st.currentPtr + fs.gBlockSize, st.blocksLoaded + 1⟩

def loadDirect (inode : Mem) : Nat → Nat → Load → Except Stuck Load
  | 0, _, st => .ok st
  | left + 1, i, st => do
    let st ← loadBlock fs disk (iBlock inode i) st
    loadDirect inode left (i + 1) st

def loadIndirect (entries : Mem) (totalBlocks : Nat) : Nat → Nat → Load → Except Stuck Load
  | 0, _, st => .ok st
  | left + 1, i, st =>
    if st.blocksLoaded < totalBlocks then do
      let st ← loadBlock fs disk (load32 entries (4 * i)) st
      loadIndirect entries totalBlocks left (i + 1) st
    else .ok st

/-- `load_file_to_memory`: its answer and the memory from `dest_addr` on. Its struct has 128 bytes;
what the copy of a longer record does to the frame behind it is not followed. -/
def loadFileToMemory (inodeNum : Nat) (inode dest : Mem) : Except Stuck (Bool × Mem) := do
  let inode ← readInode fs disk inodeNum inode
  if fs.gBlockSize = 0 then .error .divZero
  else
    let totalBlocks := wrap (iSize inode + fs.gBlockSize - 1) / fs.gBlockSize
    if iSize inode = 0 then .ok (false, dest)
    else do
      let st ← loadDirect fs disk inode (min totalBlocks 12) 0 ⟨dest, 0, 0⟩
      if st.blocksLoaded < totalBlocks then
        if iBlock inode 12 = 0 then .ok (false, st.dest)
        else if 4096 < fs.gBlockSize then .ok (false, st.dest)
        else do
          let entries ← readFsBlock fs disk (iBlock inode 12) zeroed 0 4096
          let st ← loadIndirect fs disk entries totalBlocks (fs.gBlockSize / 4) 0 st
          .ok (decide (¬ st.blocksLoaded < totalBlocks), st.dest)
      else .ok (true, st.dest)

/-- One block goes to the screen; a hole is passed over. -/
def catBlock (blockId : Nat) (st : Cat) : Except Stuck Cat :=
  let bytesToRead := if st.sizeRemaining < fs.gBlockSize then st.sizeRemaining else fs.gBlockSize
  if blockId = 0 then .ok { st with sizeRemaining := st.sizeRemaining - bytesToRead }
  else
    (readFsBlock fs disk blockId st.blockBuf 0 4096).map fun buf =>
      ⟨vgaPuts (bytesAt buf 0 bytesToRead) st.out, st.sizeRemaining - bytesToRead, buf⟩

/-- The loop over the direct blocks, with `block_index`. -/
def catDirect (inode : Mem) : Nat → Nat → Cat → Except Stuck (Cat × Nat)
  | 0, blockIndex, st => .ok (st, blockIndex)
  | left + 1, blockIndex, st =>
    if 0 < st.sizeRemaining then do
      let st ← catBlock fs disk (iBlock inode blockIndex) st
      catDirect inode left (blockIndex + 1) st
    else .ok (st, blockIndex)

def catIndirect (entries : Mem) : Nat → Nat → Cat → Except Stuck Cat
  | 0, _, st => .ok st
  | left + 1, i, st =>
    if 0 < st.sizeRemaining then do
      let st ← catBlock fs disk (load32 entries (4 * i)) st
      catIndirect entries left (i + 1) st
    else .ok st

/-- The part of `ext2_cat` that prints the blocks. -/
def catBlocks (inode : Mem) (st : Cat) : Except Stuck Cat := do
  let (st, blockIndex) ← catDirect fs disk inode 12 0 st
  if 0 < st.sizeRemaining ∧ blockIndex = 12 ∧ iBlock inode 12 ≠ 0 then do
    let indirectBuf ← readFsBlock fs disk (iBlock inode 12) zeroed 0 4096
    catIndirect fs disk indirectBuf (fs.gBlockSize / 4) 0 st
  else .ok st

end

/-- `ext2_cat`. The directory is `g_cwd_node.internal_id`; `lookupInode` and `inode` are what the
local structs of `ext2_lookup` and of `ext2_cat` hold. -/
def ext2Cat (L : Layout) (disk : Disk) (heap : MemoryState) (dirBlockBuf lookupInode : Mem)
    (fs : FileSystem) (cwd : Nat) (filename : Text) (blockBuf inode : Mem) (out : Console) :
    Except Stuck CatRun :=
  if filename.chars = [] then
    .ok ⟨heap, dirBlockBuf, blockBuf, vgaPuts (ascii "cat: Missing filename.\n") out⟩
  else do
    let out := serialPuts (ascii "[cat] filename=" ++ filename.chars ++ ascii "\n") out
    let r ← ext2Lookup L disk heap dirBlockBuf lookupInode fs cwd filename
    if r.result = 0 then
      .ok ⟨r.heap, r.blockBuf, blockBuf, vgaPuts (ascii "cat: File not found.\n") out⟩
    else do
      let inode ← readLocalInode fs disk r.result inode
      if isDirectory inode then
        .ok ⟨r.heap, r.blockBuf, blockBuf, vgaPuts (ascii "cat: Cannot cat a directory.\n") out⟩
      else if ¬ isRegular inode then
        .ok ⟨r.heap, r.blockBuf, blockBuf, vgaPuts (ascii "cat: Not a regular file.\n") out⟩
      else if iSize inode = 0 then .ok ⟨r.heap, r.blockBuf, blockBuf, out⟩
      else do
        let st ← catBlocks fs disk inode ⟨out, iSize inode, blockBuf⟩
        .ok ⟨r.heap, r.blockBuf, st.blockBuf, vgaPuts (ascii "\n") st.out⟩

/-- The bytes of a file with those block ids; a hole reads as zeros. -/
def fileByte (blockAt : Nat → Mem) (gBlockSize : Nat) (ids : Nat → Nat) (k : Nat) : UInt8 :=
  if ids (k / gBlockSize) = 0 then 0 else blockAt (ids (k / gBlockSize)) (k % gBlockSize)

theorem fileByte_of_block {blockAt : Nat → Mem} (hx : x < gBlockSize) (ids : Nat → Nat) (b : Nat) :
    fileByte blockAt gBlockSize ids (gBlockSize * b + x) =
      if ids b = 0 then 0 else blockAt (ids b) x := by
  rw [fileByte, Nat.mul_add_div (by omega), Nat.div_eq_of_lt hx, Nat.add_zero, Nat.mul_add_mod,
    Nat.mod_eq_of_lt hx]

/-- The first blocks of the file are in memory. -/
structure Load.Holds (fs : FileSystem) (disk : Disk) (ids : Nat → Nat) (blk : Nat) (st : Load) :
    Prop where
  ptr : st.currentPtr = fs.gBlockSize * blk
  loaded : st.blocksLoaded = blk
  ids_le : ∀ b, b < blk → ids b ≤ 0x100000
  bytes : ∀ k, k < fs.gBlockSize * blk →
    st.dest k = fileByte (fsBlock fs disk) fs.gBlockSize ids k

section
variable {fs : FileSystem} {disk : Disk} {ids : Nat → Nat}
  (hsec : 512 * (fs.gBlockSize / 512) = fs.gBlockSize)
  (hpos : 0 < fs.gBlockSize) (hmax : fs.gBlockSize ≤ 4096)
include hsec hpos hmax

theorem loadBlock_holds {st st' : Load} (h : st.Holds fs disk ids blk) (hblk : blk < 1036)
    (hok : loadBlock fs disk (ids blk) st = .ok st') : st'.Holds fs disk ids (blk + 1) := by
  have hfit : fs.gBlockSize * blk ≤ 4096 * 1035 := Nat.mul_le_mul hmax (by omega)
  have hsucc : fs.gBlockSize * (blk + 1) = fs.gBlockSize * blk + fs.gBlockSize := Nat.mul_succ _ _
  have hptr := h.ptr
  obtain ⟨dest, hdest, rfl⟩ := map_ok hok
  have hbytes : ids blk ≤ 0x100000 ∧ ∀ k, dest k =
      if fs.gBlockSize * blk ≤ k ∧ k < fs.gBlockSize * blk + fs.gBlockSize then
        (if ids blk = 0 then 0 else fsBlock fs disk (ids blk) (k - fs.gBlockSize * blk))
      else st.dest k := by
    by_cases hz : ids blk = 0
    · rw [if_pos hz] at hdest
      cases hdest
      refine ⟨by omega, fun k => ?_⟩
      rw [memset_apply _ _ _ (by omega), hptr, if_pos hz]
    · rw [if_neg hz] at hdest
      obtain ⟨hle, -, rfl⟩ := readFsBlock_ok hdest
      refine ⟨hle, fun k => ?_⟩
      rw [diskRead, hsec, hptr, if_neg hz, fsBlock]
  constructor
  case ptr =>
    change st.currentPtr + fs.gBlockSize = _
    omega
  case loaded => exact congrArg (· + 1) h.loaded
  case ids_le =>
    intro b hb
    rcases Nat.lt_succ_iff_lt_or_eq.1 hb with hb | rfl
    · exact h.ids_le b hb
    · exact hbytes.1
  case bytes =>
    intro k hk
    rw [hsucc] at hk
    change dest k = _
    rw [hbytes.2 k]
    by_cases hin : fs.gBlockSize * blk ≤ k
    · obtain ⟨x, rfl⟩ := Nat.exists_eq_add_of_le hin
      have hx : x < fs.gBlockSize := by omega
      rw [if_pos ⟨hin, hk⟩, fileByte_of_block hx, Nat.add_sub_cancel_left]
    · rw [if_neg (by omega)]
      exact h.bytes k (by omega)

theorem loadDirect_holds {ino : Mem} {st st' : Load} (hids : ∀ b, b < 12 → iBlock ino b = ids b)
    (h : st.Holds fs disk ids blk) (hblk : blk + left ≤ 12)
    (hok : loadDirect fs disk ino left blk st = .ok st') :
    st'.Holds fs disk ids (blk + left) := by
  induction left generalizing blk st with
  | zero =>
    cases hok
    exact h
  | succ left ih =>
    obtain ⟨st₁, h₁, hok⟩ := bind_ok hok
    rw [hids blk (by omega)] at h₁
    have hholds := ih (loadBlock_holds hsec hpos hmax h (by omega) h₁) (by omega) hok
    rwa [Nat.add_right_comm, Nat.add_assoc] at hholds

theorem loadIndirect_holds {entries : Mem} {st st' : Load}
    (hids : ∀ i, i < fs.gBlockSize / 4 → load32 entries (4 * i) = ids (12 + i))
    (h : st.Holds fs disk ids (12 + i)) (hi : i + left ≤ fs.gBlockSize / 4)
    (hok : loadIndirect fs disk entries total left i st = .ok st') :
    ∃ blk, blk ≤ 12 + fs.gBlockSize / 4 ∧ st'.Holds fs disk ids blk := by
  induction left generalizing i st with
  | zero =>
    cases hok
    exact ⟨_, by omega, h⟩
  | succ left ih =>
    rw [loadIndirect] at hok
    split at hok
    · obtain ⟨st₁, h₁, hok⟩ := bind_ok hok
      rw [hids i (by omega)] at h₁
      have h₂ := loadBlock_holds hsec hpos hmax h (by omega) h₁
      rw [Nat.add_assoc] at h₂
      exact ih h₂ (by omega) hok
    · cases hok
      exact ⟨_, by omega, h⟩

end

/-- What `ext2_cat` prints for a block of a file of that size. -/
def printed (blockAt : Nat → Mem) (gBlockSize : Nat) (ids : Nat → Nat) (size blk : Nat) :
    List UInt8 :=
  if ids blk = 0 then []
  else bytesAt (blockAt (ids blk)) 0 (min gBlockSize (size - gBlockSize * blk))

/-- The first blocks of the file have been printed. -/
structure Cat.Shows (fs : FileSystem) (disk : Disk) (ids : Nat → Nat) (size : Nat)
    (before : List UInt8) (blk : Nat) (st : Cat) : Prop where
  remaining : st.sizeRemaining = size - fs.gBlockSize * blk
  vga : st.out.vga = before ++
    (List.range blk).flatMap (printed (fsBlock fs disk) fs.gBlockSize ids size)

theorem printed_past {blockAt : Nat → Mem} (h : size ≤ gBlockSize * blk) :
    printed blockAt gBlockSize ids size blk = [] := by
  rw [printed, Nat.sub_eq_zero_of_le h, Nat.min_zero]
  exact ite_self _

section
variable {fs : FileSystem} {disk : Disk} {ids : Nat → Nat} {size : Nat} {before : List UInt8}
  (hsec : 512 * (fs.gBlockSize / 512) = fs.gBlockSize) (hmax : fs.gBlockSize ≤ 4096)
  (hids : ∀ b, fs.gBlockSize * b < size → ids b ≤ 0x100000)

/-- When nothing remains, the blocks behind add nothing. -/
theorem Cat.Shows.past {st : Cat} (h : st.Shows fs disk ids size before blk)
    (hz : st.sizeRemaining = 0) (n : Nat) : st.Shows fs disk ids size before (blk + n) := by
  have hrem := h.remaining
  induction n with
  | zero => exact h
  | succ n ih =>
    have hle : fs.gBlockSize * blk ≤ fs.gBlockSize * (blk + n) :=
      Nat.mul_le_mul_left _ (Nat.le_add_right _ _)
    have hnext : fs.gBlockSize * (blk + (n + 1)) = fs.gBlockSize * (blk + n) + fs.gBlockSize := by
      rw [← Nat.add_assoc, Nat.mul_succ]
    constructor
    · rw [hnext]
      omega
    · rw [← Nat.add_assoc, List.range_succ, List.flatMap_append, List.flatMap_singleton,
        printed_past (by omega), List.append_nil]
      exact ih.vga

include hsec hmax in
theorem catBlock_shows {st : Cat} (h : st.Shows fs disk ids size before blk)
    (hid : ids blk ≤ 0x100000) :
    ∃ st', catBlock fs disk (ids blk) st = .ok st' ∧
      st'.Shows fs disk ids size before (blk + 1) := by
  have hrem := h.remaining
  have hnext : fs.gBlockSize * (blk + 1) = fs.gBlockSize * blk + fs.gBlockSize := Nat.mul_succ _ _
  have hn : (if st.sizeRemaining < fs.gBlockSize then st.sizeRemaining else fs.gBlockSize) =
      min fs.gBlockSize (size - fs.gBlockSize * blk) := by
    rw [hrem]
    split <;> omega
  simp only [catBlock, hn]
  by_cases hz : ids blk = 0
  · rw [if_pos hz]
    refine ⟨_, rfl, ?_, ?_⟩
    · change st.sizeRemaining - _ = _
      omega
    · rw [List.range_succ, List.flatMap_append, List.flatMap_singleton, printed, if_pos hz,
        List.append_nil]
      exact h.vga
  · obtain ⟨buf, hread, hbuf⟩ := readFsBlock_brings disk st.blockBuf 0 hid hmax hsec
    have hsame : SameOn (fsBlock fs disk (ids blk)) buf 0 fs.gBlockSize := by
      intro x _ hx
      have := hbuf x hx
      rwa [Nat.zero_add] at this
    rw [if_neg hz, hread]
    refine ⟨_, rfl, ?_, ?_⟩
    · change st.sizeRemaining - _ = _
      omega
    · rw [List.range_succ, List.flatMap_append, List.flatMap_singleton, printed, if_neg hz,
        ← bytesAt_congr hsame (Nat.le_refl 0) (by omega), ← List.append_assoc, ← h.vga]
      rfl

include hsec hmax hids

theorem catDirect_shows {ino : Mem} {st : Cat} (hino : ∀ b, b < 12 → iBlock ino b = ids b)
    (h : st.Shows fs disk ids size before blk) (hblk : blk + left = 12) :
    ∃ st' blockIndex, catDirect fs disk ino left blk st = .ok (st', blockIndex) ∧
      st'.Shows fs disk ids size before 12 ∧ (0 < st'.sizeRemaining → blockIndex = 12) := by
  induction left generalizing blk st with
  | zero =>
    obtain rfl : blk = 12 := by omega
    exact ⟨st, 12, rfl, h, fun _ => rfl⟩
  | succ left ih =>
    have hrem := h.remaining
    rw [catDirect]
    by_cases hgo : 0 < st.sizeRemaining
    · obtain ⟨st₁, hcat, h₁⟩ := catBlock_shows hsec hmax h (hids blk (by omega))
      rw [if_pos hgo, hino blk (by omega), hcat]
      exact ih h₁ (by omega)
    · rw [if_neg hgo]
      have hpast := h.past (by omega) (left + 1)
      rw [hblk] at hpast
      exact ⟨st, blk, rfl, hpast, fun hpos => absurd hpos hgo⟩

theorem catIndirect_shows {entries : Mem} {st : Cat}
    (hent : ∀ i, i < fs.gBlockSize / 4 → load32 entries (4 * i) = ids (12 + i))
    (h : st.Shows fs disk ids size before (12 + i)) (hi : i + left = fs.gBlockSize / 4) :
    ∃ st', catIndirect fs disk entries left i st = .ok st' ∧
      st'.Shows fs disk ids size before (12 + fs.gBlockSize / 4) := by
  induction left generalizing i st with
  | zero =>
    rw [← hi]
    exact ⟨st, rfl, h⟩
  | succ left ih =>
    have hrem := h.remaining
    rw [catIndirect]
    by_cases hgo : 0 < st.sizeRemaining
    · obtain ⟨st₁, hcat, h₁⟩ := catBlock_shows hsec hmax h (hids (12 + i) (by omega))
      rw [if_pos hgo, hent i (by omega), hcat]
      rw [Nat.add_assoc] at h₁
      exact ih h₁ (by omega)
    · rw [if_neg hgo, ← hi, ← Nat.add_assoc]
      exact ⟨st, rfl, h.past (by omega) (left + 1)⟩

end

/-- The indirect block in a buffer names the blocks behind the direct ones. -/
theorem indirect_entries (hsec : 512 * (fs.gBlockSize / 512) = fs.gBlockSize)
    (hne : iBlock ino 12 ≠ 0)
    (hread : readFsBlock fs disk (iBlock ino 12) m 0 4096 = .ok entries) :
    ∀ i, i < fs.gBlockSize / 4 →
      load32 entries (4 * i) = fileBlock (fsBlock fs disk) ino (12 + i) := by
  intro i hi
  obtain ⟨-, -, rfl⟩ := readFsBlock_ok hread
  rw [fileBlock, if_neg (by omega), if_neg hne, Nat.add_sub_cancel_left]
  have hsame : SameOn (fsBlock fs disk (iBlock ino 12)) (diskRead disk (wrap (fs.ext2StartLba +
      wrap (iBlock ino 12 * (fs.gBlockSize / 512)))) m 0 (fs.gBlockSize / 512))
      0 fs.gBlockSize := by
    intro x _ hx
    rw [diskRead, if_pos (by omega), Nat.sub_zero, fsBlock]
  exact hsame.load32 (by omega) (by omega)

section
variable {fs : FileSystem} {disk : Disk} {ino : Mem}
  (hsec : 512 * (fs.gBlockSize / 512) = fs.gBlockSize)
  (hpos : 0 < fs.gBlockSize) (hmax : fs.gBlockSize ≤ 4096)
include hsec hmax

theorem catBlocks_shows {size : Nat} {before : List UInt8} {st : Cat}
    (hids : ∀ b, fs.gBlockSize * b < size → fileBlock (fsBlock fs disk) ino b ≤ 0x100000)
    (hind : fs.gBlockSize * 12 < size → iBlock ino 12 ≠ 0 ∧ iBlock ino 12 ≤ 0x100000)
    (h : st.Shows fs disk (fileBlock (fsBlock fs disk) ino) size before 0) :
    ∃ st', catBlocks fs disk ino st = .ok st' ∧
      st'.Shows fs disk (fileBlock (fsBlock fs disk) ino) size before (12 + fs.gBlockSize / 4) := by
  obtain ⟨st₁, blockIndex, hdirect, h₁, hindex⟩ := catDirect_shows hsec hmax hids
    (fun b hb => (fileBlock_direct hb).symm) h (Nat.zero_add 12)
  have hrem := h₁.remaining
  rw [catBlocks, hdirect]
  simp only [bind, Except.bind]
  by_cases hgo : 0 < st₁.sizeRemaining
  · obtain ⟨hne, hle⟩ := hind (by omega)
    rw [if_pos ⟨hgo, hindex hgo, hne⟩, readFsBlock_of_le hle hmax]
    exact catIndirect_shows hsec hmax hids
      (indirect_entries hsec hne (readFsBlock_of_le hle hmax)) h₁ (Nat.zero_add _)
  · rw [if_neg fun hc => hgo hc.1]
    exact ⟨st₁, rfl, h₁.past (by omega) _⟩

include hpos in
/-- What is known when `load_file_to_memory` returns true. -/
theorem loadFileToMemory_true (hread : readInode fs disk n inode = .ok ino)
    (hload : loadFileToMemory fs disk n inode dest = .ok (true, dest')) :
    iSize ino ≠ 0 ∧ ∃ blk, wrap (iSize ino + fs.gBlockSize - 1) / fs.gBlockSize ≤ blk ∧
      blk ≤ 12 + fs.gBlockSize / 4 ∧
      (∀ b, b < blk → fileBlock (fsBlock fs disk) ino b ≤ 0x100000) ∧
      (∀ k, k < fs.gBlockSize * blk →
        dest' k = fileByte (fsBlock fs disk) fs.gBlockSize (fileBlock (fsBlock fs disk) ino) k) ∧
      (12 < wrap (iSize ino + fs.gBlockSize - 1) / fs.gBlockSize →
        iBlock ino 12 ≠ 0 ∧ iBlock ino 12 ≤ 0x100000) := by
  obtain ⟨ino', hread', hload⟩ := bind_ok hload
  cases hread.symm.trans hread'
  rw [if_neg (Nat.pos_iff_ne_zero.1 hpos)] at hload
  dsimp only at hload
  generalize wrap (iSize ino + fs.gBlockSize - 1) / fs.gBlockSize = total at hload ⊢
  split at hload
  · cases hload
  next hsize =>
  refine ⟨hsize, ?_⟩
  have hstart : Load.Holds fs disk (fileBlock (fsBlock fs disk) ino) 0 ⟨dest, 0, 0⟩ :=
    ⟨(Nat.mul_zero _).symm, rfl, fun b hb => absurd hb (Nat.not_lt_zero b),
      fun k hk => absurd hk (by rw [Nat.mul_zero]; exact Nat.not_lt_zero k)⟩
  obtain ⟨st, hdirect, hload⟩ := bind_ok hload
  have h₁ := loadDirect_holds hsec hpos hmax (fun b hb => (fileBlock_direct hb).symm) hstart
    (by omega) hdirect
  have hloaded := h₁.loaded
  split at hload
  · -- the rest comes from the indirect block
    split at hload
    · cases hload
    next hne =>
    rw [if_neg (by omega)] at hload
    obtain ⟨entries, hind, hload⟩ := bind_ok hload
    obtain ⟨st', hrest, hload⟩ := bind_ok hload
    have h₁₂ : st.Holds fs disk (fileBlock (fsBlock fs disk) ino) (12 + 0) := by
      have hcount : 0 + min total 12 = 12 + 0 := by omega
      rwa [hcount] at h₁
    obtain ⟨blk, hle, h₂⟩ := loadIndirect_holds hsec hpos hmax
      (indirect_entries hsec hne hind) h₁₂ (by omega) hrest
    have hans := congrArg Prod.fst (Except.ok.inj hload)
    have hdest := congrArg Prod.snd (Except.ok.inj hload)
    dsimp only at hans hdest
    subst hdest
    have hall := of_decide_eq_true hans
    have hblk := h₂.loaded
    exact ⟨blk, by omega, hle, h₂.ids_le, h₂.bytes, fun _ => ⟨hne, (readFsBlock_ok hind).1⟩⟩
  · cases hload
    exact ⟨_, by omega, by omega, h₁.ids_le, h₁.bytes, by omega⟩

end

theorem bytesAt_append (m : Mem) (a n k : Nat) :
    bytesAt m a (n + k) = bytesAt m a n ++ bytesAt m (a + n) k := by
  induction n generalizing a with
  | zero => rw [Nat.zero_add, Nat.add_zero, bytesAt, List.nil_append]
  | succ n ih =>
    rw [Nat.succ_add, bytesAt, bytesAt, ih, List.cons_append, Nat.add_right_comm, Nat.add_assoc]

/-- Cutting a range of bytes into blocks. -/
theorem bytesAt_blocks (m : Mem) (bs size n : Nat) :
    (List.range n).flatMap (fun b => bytesAt m (bs * b) (min bs (size - bs * b))) =
      bytesAt m 0 (min size (bs * n)) := by
  induction n with
  | zero => rw [Nat.mul_zero, Nat.min_zero]; rfl
  | succ n ih =>
    have hcut : min size (bs * (n + 1)) = min size (bs * n) + min bs (size - bs * n) := by
      rw [Nat.mul_succ]
      omega
    rw [List.range_succ, List.flatMap_append, List.flatMap_singleton, ih, hcut, bytesAt_append,
      Nat.zero_add]
    by_cases hle : bs * n ≤ size
    · rw [Nat.min_eq_right hle]
    · rw [Nat.sub_eq_zero_of_le (by omega), Nat.min_zero]
      rfl

theorem bytesAt_shift (h : ∀ x, x < n → m' (b + x) = m (a + x)) :
    bytesAt m' b n = bytesAt m a n := by
  induction n generalizing a b with
  | zero => rfl
  | succ n ih =>
    have h₀ := h 0 (Nat.zero_lt_succ n)
    rw [Nat.add_zero, Nat.add_zero] at h₀
    rw [bytesAt, bytesAt, h₀]
    congr 1
    apply ih
    intro x hx
    have hx' := h (x + 1) (by omega)
    rwa [← Nat.add_assoc, ← Nat.add_assoc, Nat.add_right_comm b, Nat.add_right_comm a] at hx'

section
variable {blockAt : Nat → Mem} {gBlockSize : Nat} {ids : Nat → Nat} {size : Nat} {dest : Mem}
  (hpos : 0 < gBlockSize) (hbytes : ∀ k, k < size → dest k = fileByte blockAt gBlockSize ids k)
include hpos hbytes

/-- A block that is no hole is printed as it is in memory. -/
theorem printed_eq (hne : ids b ≠ 0) :
    printed blockAt gBlockSize ids size b =
      bytesAt dest (gBlockSize * b) (min gBlockSize (size - gBlockSize * b)) := by
  rw [printed, if_neg hne]
  apply bytesAt_shift
  intro x hx
  rw [Nat.zero_add, hbytes _ (by omega), fileByte_of_block (by omega), if_neg hne]

/-- The printed blocks are the file exactly when it has no hole. -/
theorem printed_all_iff (hn : size ≤ gBlockSize * n) :
    (List.range n).flatMap (printed blockAt gBlockSize ids size) = bytesAt dest 0 size ↔
      ∀ b, gBlockSize * b < size → ids b ≠ 0 := by
  have hall := bytesAt_blocks dest gBlockSize size n
  rw [Nat.min_eq_left hn] at hall
  rw [← hall]
  constructor
  · intro heq b hb hz
    have hlen := congrArg List.length heq
    simp only [List.length_flatMap, length_bytesAt] at hlen
    refine absurd hlen (Nat.ne_of_lt (List.sum_lt_sum _ _ ?_ ⟨b, ?_, ?_⟩))
    · intro c _
      dsimp only [printed]
      split
      · exact Nat.zero_le _
      · rw [length_bytesAt]
    · rw [List.mem_range]
      exact Nat.lt_of_mul_lt_mul_left (Nat.lt_of_lt_of_le hb hn)
    · rw [printed, if_pos hz, List.length_nil]
      omega
  · intro hne
    refine List.flatMap_congr fun b _ => ?_
    by_cases hb : gBlockSize * b < size
    · exact printed_eq hpos hbytes (hne b hb)
    · rw [printed_past (by omega), Nat.sub_eq_zero_of_le (by omega), Nat.min_zero]
      rfl

end

/-- How much a walk over blocks can print at most. -/
theorem catBlock_length (h : catBlock fs disk blockId st = .ok st') :
    st'.out.vga.length ≤ st.out.vga.length + fs.gBlockSize := by
  simp only [catBlock] at h
  split at h
  · cases h
    exact Nat.le_add_right _ _
  · obtain ⟨buf, -, rfl⟩ := map_ok h
    dsimp only [vgaPuts]
    rw [List.length_append, length_bytesAt]
    split <;> omega

theorem catDirect_length (h : catDirect fs disk ino left blk st = .ok (st', i)) :
    st'.out.vga.length ≤ st.out.vga.length + left * fs.gBlockSize := by
  induction left generalizing blk st with
  | zero =>
    cases h
    omega
  | succ left ih =>
    rw [catDirect] at h
    rw [Nat.succ_mul]
    split at h
    · obtain ⟨st₁, h₁, h⟩ := bind_ok h
      have := catBlock_length h₁
      have := ih h
      omega
    · cases h
      omega

theorem catIndirect_length (h : catIndirect fs disk entries left i st = .ok st') :
    st'.out.vga.length ≤ st.out.vga.length + left * fs.gBlockSize := by
  induction left generalizing i st with
  | zero =>
    cases h
    omega
  | succ left ih =>
    rw [catIndirect] at h
    rw [Nat.succ_mul]
    split at h
    · obtain ⟨st₁, h₁, h⟩ := bind_ok h
      have := catBlock_length h₁
      have := ih h
      omega
    · cases h
      omega

theorem catBlocks_length (h : catBlocks fs disk ino st = .ok st') :
    st'.out.vga.length ≤
      st.out.vga.length + 12 * fs.gBlockSize + fs.gBlockSize / 4 * fs.gBlockSize := by
  rw [catBlocks] at h
  obtain ⟨⟨st₁, i⟩, h₁, h⟩ := bind_ok h
  have hd := catDirect_length h₁
  dsimp only at h
  split at h
  · obtain ⟨entries, -, h⟩ := bind_ok h
    have := catIndirect_length h
    omega
  · cases h
    omega

/-- `ext2_cat` of a regular file that is not empty. -/
theorem ext2Cat_regular {out : Console} (hname : filename.chars ≠ [])
    (hlook : ext2Lookup L disk heap dirBlockBuf lookupInode fs cwd filename = .ok r)
    (hr : r.result ≠ 0) (hread : readLocalInode fs disk r.result inode = .ok ino)
    (hreg : isRegular ino = true) (hsize : iSize ino ≠ 0) (blockBuf : Mem) :
    ext2Cat L disk heap dirBlockBuf lookupInode fs cwd filename blockBuf inode out =
      (catBlocks fs disk ino
        ⟨serialPuts (ascii "[cat] filename=" ++ filename.chars ++ ascii "\n") out, iSize ino,
          blockBuf⟩).map fun st =>
        ⟨r.heap, r.blockBuf, st.blockBuf, vgaPuts (ascii "\n") st.out⟩ := by
  have hdir : ¬ isDirectory ino = true := by
    intro hd
    have h₁ : load16 ino 0 &&& 0xF000 = 0x8000 := of_decide_eq_true hreg
    have h₂ : load16 ino 0 &&& 0xF000 = 0x4000 := of_decide_eq_true hd
    omega
  rw [ext2Cat, if_neg hname, hlook]
  simp only [bind, Except.bind, if_neg hr, hread, if_neg hdir, hreg, not_true_eq_false, if_false,
    if_neg hsize]
  rfl

theorem blockCountOf_lt_iff (hbs : fs.gBlockSize = 1024 ∨ fs.gBlockSize = 2048 ∨
    fs.gBlockSize = 4096) (ino : Mem) (b : Nat) :
    b < blockCountOf fs ino ↔ fs.gBlockSize * b < iSize ino := by
  rw [blockCountOf]
  rcases hbs with h | h | h
  all_goals
    rw [h]
    omega

/-- What a struct that `read_inode` has filled says of a file. -/
theorem readInode_fields (hi : 92 ≤ fs.gInodeSize) (hn : 1 ≤ n ∧ n ≤ fs.gSb.inodesCount)
    (hino : readInode fs disk n zeroed = .ok ino) (inode : Mem) :
    ∃ ino', readInode fs disk n inode = .ok ino' ∧ iSize ino' = iSize ino ∧
      isRegular ino' = isRegular ino ∧ ∀ k ≤ 12, iBlock ino' k = iBlock ino k := by
  obtain ⟨ino', hread, hsame⟩ := readInode_congr hn hino inode
  refine ⟨ino', hread, hsame.load32 (by omega) (by omega), ?_, ?_⟩
  · rw [isRegular, isRegular, hsame.load16 (by omega) (by omega)]
  · exact fun k hk => hsame.load32 (by omega) (by omega)

/-- `cat` prints no more than the block ids reach, too little for a file of almost 4 GiB. -/
theorem catBlocks_falls_short (hbs : fs.gBlockSize = 1024 ∨ fs.gBlockSize = 2048 ∨
    fs.gBlockSize = 4096) (hbig : ¬ size + fs.gBlockSize - 1 < 4294967296)
    (h : catBlocks fs disk ino st = .ok st') :
    st'.out.vga.length < st.out.vga.length + size := by
  have hlen := catBlocks_length h
  rcases hbs with h | h | h
  all_goals
    rw [h] at hlen hbig
    omega

/-- No block of the file is a hole, and its size does not wrap the block count. -/
def FileDense (fs : FileSystem) (disk : Disk) (inode : Mem) : Prop :=
  iSize inode + fs.gBlockSize - 1 < 4294967296 ∧
    ∀ b, b < blockCountOf fs inode → fileBlock (fsBlock fs disk) inode b ≠ 0

/-- `ext2_cat` comes back, and has printed the text and a newline. -/
def CatPrints (x : Except Stuck CatRun) (out : Console) (text : List UInt8) : Prop :=
  ∃ c, x = .ok c ∧ c.out.vga = out.vga ++ text ++ ascii "\n"

section
variable {disk : Disk} {fs : FileSystem} {n : Nat} {ino inode dest dest' : Mem} {L : Layout}
  {heap : MemoryState} {dirBlockBuf lookupInode : Mem} {cwd : Nat} {filename : Text}
  {r : Scan Nat} (out : Console)
  (hm : mount disk root = .ok fs) (hn : 1 ≤ n ∧ n ≤ fs.gSb.inodesCount)
  (hino : readInode fs disk n zeroed = .ok ino) (hreg : isRegular ino = true)
  (hload : loadFileToMemory fs disk n inode dest = .ok (true, dest'))
  (hname : filename.chars ≠ [])
  (hlook : ext2Lookup L disk heap dirBlockBuf lookupInode fs cwd filename = .ok r)
  (hr : r.result = n)
include hm hn hino hreg hload hname hlook hr

/-- A struct that holds the record and no more prints what is loaded exactly when the file is
dense. -/
theorem ext2Cat_prints_iff (hi : 92 ≤ fs.gInodeSize ∧ fs.gInodeSize ≤ 128)
    (blockBuf catInode : Mem) :
    CatPrints (ext2Cat L disk heap dirBlockBuf lookupInode fs cwd filename blockBuf catInode out)
        out (bytesAt dest' 0 (iSize ino)) ↔ FileDense fs disk ino := by
  have hbs := mount_blockSize hm
  have hsec : 512 * (fs.gBlockSize / 512) = fs.gBlockSize := by omega
  have hpos : 0 < fs.gBlockSize := by omega
  have hmax : fs.gBlockSize ≤ 4096 := by omega
  -- the two local structs hold the same inode
  obtain ⟨ino₁, hread₁, hsize₁, -, hblocks₁⟩ := readInode_fields hi.1 hn hino inode
  obtain ⟨ino₂, hread₂, hsize₂, hreg₂, hblocks₂⟩ := readInode_fields hi.1 hn hino catInode
  obtain ⟨hne, blk, hblk, hfull, hids, hbytes, hind⟩ :=
    loadFileToMemory_true hsec hpos hmax hread₁ hload
  rw [hsize₁] at hne hblk hind
  rw [fileBlock_congr hblocks₁] at hids hbytes
  rw [hblocks₁ 12 (Nat.le_refl 12)] at hind
  rw [← hr, ← readLocalInode_of_fits hi.2] at hread₂
  rw [ext2Cat_regular hname hlook (by omega) hread₂ (hreg₂.trans hreg) (by omega) blockBuf, hsize₂]
  by_cases hfit : iSize ino + fs.gBlockSize - 1 < 4294967296
  · rw [wrap_of_lt hfit] at hblk hind
    have hcount : ∀ b, fs.gBlockSize * b < iSize ino → b < blk := fun b hb =>
      Nat.lt_of_lt_of_le ((blockCountOf_lt_iff hbs ino b).2 hb) hblk
    have hstart : Cat.Shows fs disk (fileBlock (fsBlock fs disk) ino₂) (iSize ino) out.vga 0
        ⟨serialPuts (ascii "[cat] filename=" ++ filename.chars ++ ascii "\n") out, iSize ino,
          blockBuf⟩ := ⟨by rw [Nat.mul_zero, Nat.sub_zero], (List.append_nil _).symm⟩
    have hids₂ : ∀ b, fs.gBlockSize * b < iSize ino →
        fileBlock (fsBlock fs disk) ino₂ b ≤ 0x100000 := by
      intro b hb
      rw [fileBlock_congr hblocks₂]
      exact hids b (hcount b hb)
    have hind₂ : fs.gBlockSize * 12 < iSize ino →
        iBlock ino₂ 12 ≠ 0 ∧ iBlock ino₂ 12 ≤ 0x100000 := by
      intro hb
      rw [hblocks₂ 12 (Nat.le_refl 12)]
      exact hind ((blockCountOf_lt_iff hbs ino 12).2 hb)
    obtain ⟨st, hst, hshows⟩ := catBlocks_shows hsec hmax hids₂ hind₂ hstart
    have hsize : iSize ino ≤ fs.gBlockSize * blk := by
      by_contra hlt
      exact Nat.lt_irrefl blk (hcount blk (by omega))
    have hreach : iSize ino ≤ fs.gBlockSize * (12 + fs.gBlockSize / 4) :=
      hsize.trans (Nat.mul_le_mul_left _ hfull)
    have hiff := printed_all_iff hpos (fun k hk => hbytes k (by omega)) hreach
    have hvga := hshows.vga
    rw [fileBlock_congr hblocks₂] at hvga
    rw [hst, FileDense, and_iff_right hfit]
    simp only [blockCountOf_lt_iff hbs]
    rw [← hiff]
    constructor
    · rintro ⟨c, hc, hout⟩
      cases hc
      simp only [vgaPuts, hvga, List.append_assoc, List.append_cancel_left_eq] at hout
      exact List.append_cancel_right hout
    · intro hall
      refine ⟨_, rfl, ?_⟩
      simp only [vgaPuts, hvga, hall]
  · refine iff_of_false ?_ fun hc => hfit hc.1
    rintro ⟨c, hcat, hvga⟩
    obtain ⟨st, hst, rfl⟩ := map_ok hcat
    have hshort := catBlocks_falls_short hbs hfit hst
    have hlen := congrArg List.length hvga
    simp only [vgaPuts, serialPuts, List.length_append, length_bytesAt] at hshort hlen
    omega

omit hm hino hreg hload in
/-- A call that comes back has read a record that fits the struct. -/
theorem inode_fits_of_ext2Cat
    (h : ext2Cat L disk heap dirBlockBuf lookupInode fs cwd filename blockBuf catInode out =
      .ok c) : fs.gInodeSize ≤ 128 := by
  rw [ext2Cat, if_neg hname, hlook] at h
  simp only [bind, Except.bind, if_neg (show r.result ≠ 0 by omega)] at h
  obtain ⟨ino, hread, -⟩ := bind_ok h
  rw [hr] at hread
  exact (readLocalInode_ok hread).2 hn

/-- `cat` prints what `load_file_to_memory` stores when the file is dense and the record of its
inode fills the fields and fits the struct; a longer record is fatal to `cat`, and where the fields
are filled, so that both read the same file, it must be dense. -/
theorem cat_agrees_with_load_iff (blockBuf catInode : Mem) :
    (92 ≤ fs.gInodeSize ∧ fs.gInodeSize ≤ 128 ∧ FileDense fs disk ino →
      CatPrints
        (ext2Cat L disk heap dirBlockBuf lookupInode fs cwd filename blockBuf catInode out)
        out (bytesAt dest' 0 (iSize ino))) ∧
    (CatPrints
        (ext2Cat L disk heap dirBlockBuf lookupInode fs cwd filename blockBuf catInode out)
        out (bytesAt dest' 0 (iSize ino)) →
      fs.gInodeSize ≤ 128 ∧ (92 ≤ fs.gInodeSize → FileDense fs disk ino)) := by
  have hiff := ext2Cat_prints_iff out hm hn hino hreg hload hname hlook hr
  constructor
  · rintro ⟨hlo, hhi, hdense⟩
    exact (hiff ⟨hlo, hhi⟩ blockBuf catInode).2 hdense
  · intro hprints
    obtain ⟨c, hc, -⟩ := id hprints
    have hhi := inode_fits_of_ext2Cat out hn hname hlook hr hc
    exact ⟨hhi, fun hlo => (hiff ⟨hlo, hhi⟩ blockBuf catInode).1 hprints⟩

end

/-- A raw image with 1 KiB blocks and two files in its root directory: `f` with the two bytes of
block 11, and `h` of 1025 bytes, a hole and the first byte of block 11. -/
def twoFilesImage : Disk := sparseDisk
  [(1024, 16), (1044, 1), (1064, 16), (1080, 0x53), (1081, 0xEF), (2056, 5),
    (5248, 0xED), (5249, 0x41), (5253, 0x04), (5288, 8),
    (8192, 12), (8196, 12), (8198, 1), (8199, 1), (8200, 0x66),
    (8204, 13), (8208, 0xF4), (8209, 0x03), (8210, 1), (8211, 1), (8212, 0x68),
    (6528, 0xA4), (6529, 0x81), (6532, 2), (6568, 11),
    (6656, 0xA4), (6657, 0x81), (6660, 1), (6661, 4), (6700, 11),
    (11264, 0x48), (11265, 0x69)]

/-- What a look at a file of the image shows: a regular file of that size and with those blocks,
found under its name, and loaded. -/
def FileFound (fs : FileSystem) (n size : Nat) (ids : List Nat) (name : Text) : Prop :=
  (readInode fs twoFilesImage n zeroed).map (fun ino =>
    decide (isRegular ino = true ∧ iSize ino = size ∧
      (List.range ids.length).map (fileBlock (fsBlock fs twoFilesImage) ino) = ids)) = .ok true ∧
  (loadFileToMemory fs twoFilesImage n zeroed zeroed).map (fun r => decide (r.1 = true)) =
    .ok true ∧
  (ext2Lookup Layout.sample twoFilesImage bootMemory zeroed zeroed fs 2 name).map
    (fun r => decide (r.result = n)) = .ok true

instance : Decidable (FileFound fs n size ids name) := inferInstanceAs (Decidable (_ ∧ _ ∧ _))

def fileF : Text := ⟨[0x66], by decide⟩
def fileH : Text := ⟨[0x68], by decide⟩

theorem mount_twoFilesImage : ∃ fs, mount twoFilesImage zeroed = .ok fs ∧
    fs.gInodeSize = 128 ∧ fs.gBlockSize = 1024 ∧ fs.gSb.inodesCount = 16 ∧
      FileFound fs 12 2 [11] fileF ∧ FileFound fs 13 1025 [0, 11] fileH ∧
      (ext2Cat Layout.sample twoFilesImage bootMemory zeroed zeroed fs 2 fileH zeroed zeroed
        ⟨[], []⟩).map (fun c => decide (c.out.vga = [0x48, 10])) = .ok true ∧
      fs.ext2StartLba = 0 :=
  exists_ok (by decide +kernel)

theorem cat_agrees_with_load_of_f : ∃ fs dest' c, mount twoFilesImage zeroed = .ok fs ∧
    loadFileToMemory fs twoFilesImage 12 zeroed zeroed = .ok (true, dest') ∧
    ext2Cat Layout.sample twoFilesImage bootMemory zeroed zeroed fs 2 fileF zeroed zeroed
      ⟨[], []⟩ = .ok c ∧ c.out.vga = bytesAt dest' 0 2 ++ ascii "\n" := by
  obtain ⟨fs, hm, hi, hb, hcount, ⟨hino, hload, hlook⟩, -⟩ := mount_twoFilesImage
  obtain ⟨ino, hread, hreg, hsize, hids⟩ := exists_ok hino
  obtain ⟨⟨_, dest'⟩, hld, rfl⟩ := exists_ok hload
  obtain ⟨r, hlk, hr⟩ := exists_ok hlook
  have hdense : FileDense fs twoFilesImage ino := by
    rw [FileDense, blockCountOf, hsize, hb]
    refine ⟨by decide, fun b hb' => ?_⟩
    obtain rfl : b = 0 := by omega
    have h₀ : fileBlock (fsBlock fs twoFilesImage) ino 0 = 11 := (List.cons.inj hids).1
    rw [h₀]
    decide
  obtain ⟨c, hc, hvga⟩ := (cat_agrees_with_load_iff ⟨[], []⟩ hm (by omega) hread hreg hld
    (by decide) hlk hr zeroed zeroed).1 ⟨by omega, by omega, hdense⟩
  rw [hsize] at hvga
  exact ⟨fs, dest', c, hm, hld, hc, hvga⟩

/-- The hole of `h` is 1024 zeros in memory and nothing on the screen. -/
theorem cat_skips_hole : ∃ fs ino dest' r c, mount twoFilesImage zeroed = .ok fs ∧
    readInode fs twoFilesImage 13 zeroed = .ok ino ∧ isRegular ino = true ∧
    loadFileToMemory fs twoFilesImage 13 zeroed zeroed = .ok (true, dest') ∧
    ext2Lookup Layout.sample twoFilesImage bootMemory zeroed zeroed fs 2 fileH = .ok r ∧
    r.result = 13 ∧
    ext2Cat Layout.sample twoFilesImage bootMemory zeroed zeroed fs 2 fileH zeroed zeroed
      ⟨[], []⟩ = .ok c ∧ c.out.vga ≠ bytesAt dest' 0 (iSize ino) ++ ascii "\n" := by
  obtain ⟨fs, hm, -, -, -, -, ⟨hino, hload, hlook⟩, hcat, -⟩ := mount_twoFilesImage
  obtain ⟨ino, hread, hreg, hsize, -⟩ := exists_ok hino
  obtain ⟨⟨_, dest'⟩, hld, rfl⟩ := exists_ok hload
  obtain ⟨r, hlk, hr⟩ := exists_ok hlook
  obtain ⟨c, hc, hvga⟩ := exists_ok hcat
  refine ⟨fs, ino, dest', r, c, hm, hread, hreg, hld, hlk, hr, hc, fun heq => ?_⟩
  have hlen := congrArg List.length heq
  rw [hvga, hsize, List.length_append, length_bytesAt] at hlen
  simp only [List.length_cons, List.length_nil] at hlen
  omega

end KernelCustom
