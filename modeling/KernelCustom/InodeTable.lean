import KernelCustom.FileSystem
import Mathlib.Tactic.Ring

namespace KernelCustom
open Word32 ByteStore
set_option autoImplicit true

/-- The block size that a superblock stores. -/
def Superblock.blockBytes (sb : Superblock) : Nat := 1024 * 2 ^ sb.logBlockSize

/-- The inode size that a superblock stores; revision 0 has no field for it. -/
def Superblock.inodeBytes (sb : Superblock) : Nat := if 1 ≤ sb.revLevel then sb.inodeSize else 128

/-- The block group of an inode. -/
def Superblock.groupOf (sb : Superblock) (n : Nat) : Nat := (n - 1) / sb.inodesPerGroup

/-- What an ext2 superblock promises: a block size that fits its word, inodes of at least 128
bytes that fill a block, an inode bitmap of one block for each group, and group descriptors that
fit in one block. -/
structure Superblock.Formatted (sb : Superblock) : Prop where
  block_fits : sb.blockBytes < 4294967296
  inode_min : 128 ≤ sb.inodeBytes
  inode_dvd : sb.inodeBytes ∣ sb.blockBytes
  group_pos : 0 < sb.inodesPerGroup
  bitmap : sb.inodesPerGroup ≤ 8 * sb.blockBytes
  descriptors : (sb.inodesCount + sb.inodesPerGroup - 1) / sb.inodesPerGroup * 32 ≤ sb.blockBytes

/-- What `kmain` holds when it has read the superblock and the descriptor block of a drive and
found the inode table of group 0 plausible. -/
structure Mounted (disk : Disk) (fs : FileSystem) : Prop where
  start : fs.ext2StartLba = probeExt2Partition disk
  superblock : fs.gSb = readSuperblock (diskRead disk (wrap (fs.ext2StartLba + 2)) zeroed 0 2)
  magic : fs.gSb.magic = 0xEF53
  sizes : fsInit fs.ext2StartLba fs.gSb = .ok { fs with fsGdt := zeroed }
  descriptors : fs.fsGdt = diskRead disk (wrap (fs.ext2StartLba +
    wrap (wrap (fs.gSb.firstDataBlock + 1) * (fs.gBlockSize / 512)))) zeroed 0 (fs.gBlockSize / 512)
  table : bgInodeTable fs.fsGdt 0 ≠ 0 ∧ bgInodeTable fs.fsGdt 0 ≤ 0x10000

/-- Where the record of an inode starts, in bytes from the start of the partition. -/
def FileSystem.recordAt (fs : FileSystem) (n : Nat) : Nat :=
  bgInodeTable fs.fsGdt (fs.gSb.groupOf n) * fs.gSb.blockBytes +
    (n - 1) % fs.gSb.inodesPerGroup * fs.gSb.inodeBytes

/-- `read_inode` fills the struct with the first 128 bytes of the record, whatever the drive
holds. -/
def FileSystem.DeliversInode (fs : FileSystem) (n : Nat) : Prop :=
  ∀ disk outInode, ∃ inode, readInode fs disk n outInode = .ok inode ∧
    ∀ k < 128, inode k = disk (fs.ext2StartLba * 512 + fs.recordAt n + k)

/-- The inode table of a group stands where the table of group 0 would have the group's inodes,
had it been long enough. -/
def FileSystem.TableContinues (fs : FileSystem) (group : Nat) : Prop :=
  bgInodeTable fs.fsGdt group * fs.gSb.blockBytes =
    bgInodeTable fs.fsGdt 0 * fs.gSb.blockBytes +
      group * fs.gSb.inodesPerGroup * fs.gSb.inodeBytes

theorem fsInit_ok (h : fsInit start sb = .ok fs) :
    fs.gBlockSize = wrap (1024 <<< (sb.logBlockSize % 32)) ∧ fs.gInodeSize = sb.inodeBytes ∧
      fs.ext2StartLba = start ∧ fs.gSb = sb ∧ fs.fsGdt = zeroed := by
  rw [fsInit] at h
  by_cases hz : (if 1 ≤ sb.revLevel then sb.inodeSize else 128) = 0
  · rw [if_pos hz] at h
    cases h
  · rw [if_neg hz] at h
    cases h
    exact ⟨rfl, rfl, rfl, rfl, rfl⟩

theorem readFsBlock_ok (h : readFsBlock fs disk blockId m buf capacity = .ok m') :
    blockId ≤ 0x100000 ∧ 512 * (fs.gBlockSize / 512) ≤ capacity ∧
      m' = diskRead disk (wrap (fs.ext2StartLba + wrap (blockId * (fs.gBlockSize / 512)))) m buf
        (fs.gBlockSize / 512) := by
  rw [readFsBlock] at h
  by_cases hid : 0x100000 < blockId
  · rw [if_pos hid] at h
    cases h
  · rw [if_neg hid] at h
    by_cases hcap : capacity < 512 * (fs.gBlockSize / 512)
    · rw [if_pos hcap] at h
      cases h
    · rw [if_neg hcap] at h
      cases h
      exact ⟨by omega, by omega, rfl⟩

theorem readFsBlock_of_le (hid : blockId ≤ 0x100000) (hcap : fs.gBlockSize ≤ capacity) :
    readFsBlock fs disk blockId m buf capacity =
      .ok (diskRead disk (wrap (fs.ext2StartLba + wrap (blockId * (fs.gBlockSize / 512)))) m buf
        (fs.gBlockSize / 512)) := by
  rw [readFsBlock, if_neg (by omega), if_neg (by omega)]

theorem bind_ok {x : Except Stuck α} {f : α → Except Stuck β} (h : x >>= f = .ok r) :
    ∃ a, x = .ok a ∧ f a = .ok r := by
  cases x with
  | error e => cases h
  | ok a => exact ⟨a, rfl, h⟩

theorem map_ok {x : Except Stuck α} {f : α → β} (h : x.map f = .ok r) :
    ∃ a, x = .ok a ∧ r = f a := by
  cases x with
  | error e => cases h
  | ok a =>
    cases h
    exact ⟨a, rfl, rfl⟩

/-- The bytes that `read_inode` copies for a valid number, from `src` on. -/
def inodeSource (fs : FileSystem) (disk : Disk) (n : Nat) : Except Stuck Mem :=
  if fs.gInodeSize = 0 then .error .divZero
  else if fs.gBlockSize / fs.gInodeSize = 0 then .error .hang
  else
    (readFsBlock fs disk (wrap (bgInodeTable fs.fsGdt 0 +
        (n - 1) / (fs.gBlockSize / fs.gInodeSize))) zeroed 0 4096).map fun safeInodeBuf i =>
      safeInodeBuf (wrap ((n - 1) % (fs.gBlockSize / fs.gInodeSize) * fs.gInodeSize) + i)

theorem readInode_eq_map (hn : 1 ≤ n ∧ n ≤ fs.gSb.inodesCount) (disk : Disk) (outInode : Mem) :
    readInode fs disk n outInode =
      (inodeSource fs disk n).map fun src i => if i < fs.gInodeSize then src i else outInode i := by
  rw [readInode, if_neg (by omega), inodeSource]
  by_cases hzero : fs.gInodeSize = 0
  · rw [if_pos hzero, if_pos hzero]
    rfl
  rw [if_neg hzero, if_neg hzero]
  by_cases hper : fs.gBlockSize / fs.gInodeSize = 0
  · rw [if_pos hper, if_pos hper]
    rfl
  rw [if_neg hper, if_neg hper]
  dsimp only
  cases readFsBlock fs disk _ zeroed 0 4096 <;> rfl

/-- A struct that `read_inode` fills completely does not show what it held before. -/
theorem readInode_congr (hn : 1 ≤ n ∧ n ≤ fs.gSb.inodesCount)
    (h : readInode fs disk n outInode = .ok inode) (outInode' : Mem) :
    ∃ inode', readInode fs disk n outInode' = .ok inode' ∧
      SameOn inode inode' 0 fs.gInodeSize := by
  rw [readInode_eq_map hn] at h ⊢
  cases hsource : inodeSource fs disk n with
  | error e =>
    rw [hsource] at h
    cases h
  | ok src =>
    rw [hsource] at h
    cases h
    refine ⟨_, rfl, ?_⟩
    intro x _ hx
    dsimp only
    rw [if_pos hx, if_pos hx]

theorem readLocalInode_of_fits (hi : fs.gInodeSize ≤ 128) (disk : Disk) (n : Nat) (inode : Mem) :
    readLocalInode fs disk n inode = readInode fs disk n inode := by
  rw [readLocalInode]
  cases readInode fs disk n inode with
  | error e => rfl
  | ok out => exact if_neg (by omega)

theorem readLocalInode_invalid (hn : ¬ (1 ≤ n ∧ n ≤ fs.gSb.inodesCount)) (disk : Disk)
    (inode : Mem) : readLocalInode fs disk n inode = .ok inode := by
  have hbad : n = 0 ∨ fs.gSb.inodesCount < n := by omega
  rw [readLocalInode, readInode, if_pos hbad]
  exact if_neg (not_and_of_not_left _ (not_not_intro hbad))

/-- A call that comes back has brought what `read_inode` reads, and not past the struct. -/
theorem readLocalInode_ok (h : readLocalInode fs disk n inode = .ok out) :
    readInode fs disk n inode = .ok out ∧
      (1 ≤ n ∧ n ≤ fs.gSb.inodesCount → fs.gInodeSize ≤ 128) := by
  obtain ⟨out', hread, h⟩ := bind_ok h
  by_cases hpast : ¬ (n = 0 ∨ fs.gSb.inodesCount < n) ∧ 128 < fs.gInodeSize
  · rw [if_pos hpast] at h
    cases h
  · rw [if_neg hpast] at h
    cases h
    exact ⟨hread, fun hn => by omega⟩

/-- The record of a valid number is longer than the struct: the caller does not come back. -/
theorem readLocalInode_smashed (hn : 1 ≤ n ∧ n ≤ fs.gSb.inodesCount) (hi : 128 < fs.gInodeSize)
    (disk : Disk) (inode : Mem) :
    readLocalInode fs disk n inode = readInode fs disk n inode >>= fun _ => .error .smashed := by
  rw [readLocalInode]
  cases readInode fs disk n inode with
  | error e => rfl
  | ok out => exact if_pos ⟨by omega, hi⟩

theorem mount_mounted (h : mount disk root = .ok fs) : Mounted disk fs := by
  rw [mount] at h
  by_cases hmagic : (readSuperblock (diskRead disk (wrap (probeExt2Partition disk + 2))
      zeroed 0 2)).magic = 0xEF53
  · rw [if_pos hmagic] at h
    obtain ⟨fs₀, hinit, h⟩ := bind_ok h
    obtain ⟨gdt, hgdt, h⟩ := bind_ok h
    obtain ⟨_, _, hstart, hsb, hzero⟩ := fsInit_ok hinit
    obtain ⟨_, _, hgdt⟩ := readFsBlock_ok hgdt
    by_cases htable : bgInodeTable gdt 0 = 0 ∨ 0x10000 < bgInodeTable gdt 0
    · rw [if_pos htable] at h
      cases h
    · rw [if_neg htable] at h
      obtain ⟨root', _, h⟩ := bind_ok h
      by_cases hdir : isDirectory root' = true
      · rw [if_pos hdir] at h
        cases h
        obtain ⟨hne, hle⟩ := not_or.1 htable
        have hfs₀ : { fs₀ with fsGdt := zeroed } = fs₀ := by rw [← hzero]
        refine ⟨hstart, ?_, ?_, ?_, ?_, hne, Nat.le_of_not_lt hle⟩
        · rw [hsb, hstart]
        · rw [hsb]
          exact hmagic
        · show fsInit fs₀.ext2StartLba fs₀.gSb = .ok { fs₀ with fsGdt := zeroed }
          rw [hfs₀, hsb, hstart, hinit]
        · rw [hsb]
          exact hgdt
      · rw [if_neg hdir] at h
        cases h
  · rw [if_neg hmagic] at h
    cases h

theorem Superblock.Formatted.shift {sb : Superblock} (hf : sb.Formatted) :
    wrap (1024 <<< (sb.logBlockSize % 32)) = sb.blockBytes := by
  have hfits := hf.block_fits
  rw [Superblock.blockBytes] at hfits ⊢
  have hlog : sb.logBlockSize < 32 := by
    by_contra hlog
    have := Nat.pow_le_pow_right (n := 2) (by decide) (Nat.le_of_not_lt hlog)
    omega
  rw [Nat.mod_eq_of_lt hlog, Nat.shiftLeft_eq, wrap_of_lt hfits]

theorem Superblock.sectors_mul (sb : Superblock) :
    512 * (sb.blockBytes / 512) = sb.blockBytes := by
  rw [Superblock.blockBytes]
  omega

theorem Mounted.sizes_eq (hm : Mounted disk fs) (hf : fs.gSb.Formatted) :
    fs.gBlockSize = fs.gSb.blockBytes ∧ fs.gInodeSize = fs.gSb.inodeBytes := by
  obtain ⟨hb, hi, _⟩ := fsInit_ok hm.sizes
  exact ⟨hb.trans hf.shift, hi⟩

/-- Entry `i` of a table is `i` entries behind its start, block borders or not. -/
theorem entry_address (hs : s ∣ b) (t i : Nat) :
    (t + i / (b / s)) * b + i % (b / s) * s = t * b + i * s := by
  have hb : b = b / s * s := (Nat.div_mul_cancel hs).symm
  have hi := Nat.div_add_mod i (b / s)
  generalize b / s = p at *
  subst hb
  calc (t + i / p) * (p * s) + i % p * s = t * (p * s) + (p * (i / p) + i % p) * s := by ring
    _ = t * (p * s) + i * s := by rw [hi]

theorem Superblock.Formatted.inodesCount_le {sb : Superblock} (hf : sb.Formatted)
    (hb : sb.blockBytes ≤ 4096) : sb.inodesCount ≤ 4194304 := by
  have hd := hf.descriptors
  have hpos := hf.group_pos
  have hcount := Nat.lt_div_mul_add (a := sb.inodesCount + sb.inodesPerGroup - 1) hpos
  generalize (sb.inodesCount + sb.inodesPerGroup - 1) / sb.inodesPerGroup = groups at hd hcount
  have hbitmap := hf.bitmap
  calc sb.inodesCount ≤ groups * sb.inodesPerGroup := by omega
    _ ≤ 128 * 32768 := Nat.mul_le_mul (by omega) (by omega)

theorem Superblock.Formatted.inodesPerBlock_pos {sb : Superblock} (hf : sb.Formatted) :
    0 < sb.blockBytes / sb.inodeBytes := by
  have hmin := hf.inode_min
  have hpos : 0 < sb.blockBytes := Nat.mul_pos (by decide) (Nat.two_pow_pos _)
  exact Nat.div_pos (Nat.le_of_dvd hpos hf.inode_dvd) (by omega)

theorem Superblock.Formatted.entry_fits {sb : Superblock} (hf : sb.Formatted) (i : Nat) :
    i % (sb.blockBytes / sb.inodeBytes) * sb.inodeBytes + sb.inodeBytes ≤ sb.blockBytes := by
  rw [← Nat.succ_mul]
  exact (Nat.mul_le_mul_right _ (Nat.mod_lt _ hf.inodesPerBlock_pos)).trans_eq
    (Nat.div_mul_cancel hf.inode_dvd)

/-- A 32-bit sum and the true sum give the drive the same LBA. -/
theorem wrap_mod_lba (n : Nat) : wrap n % 268435456 = n % 268435456 := by
  rw [wrap]
  omega

/-- The block of the drive's file system that `read_inode` asks for. -/
def FileSystem.blockAsked (fs : FileSystem) (n : Nat) : Nat :=
  bgInodeTable fs.fsGdt 0 + (n - 1) / (fs.gSb.blockBytes / fs.gSb.inodeBytes)

/-- The byte of the drive that `read_inode` copies to the start of the struct. -/
def FileSystem.fetchedAt (fs : FileSystem) (n : Nat) : Nat :=
  (fs.ext2StartLba + fs.blockAsked n * (fs.gSb.blockBytes / 512)) % 268435456 * 512 +
    (n - 1) % (fs.gSb.blockBytes / fs.gSb.inodeBytes) * fs.gSb.inodeBytes

theorem FileSystem.blockAsked_mul (fs : FileSystem) (hf : fs.gSb.Formatted) (n : Nat) :
    fs.blockAsked n * fs.gSb.blockBytes +
      (n - 1) % (fs.gSb.blockBytes / fs.gSb.inodeBytes) * fs.gSb.inodeBytes =
    bgInodeTable fs.fsGdt 0 * fs.gSb.blockBytes +
      (fs.gSb.groupOf n * fs.gSb.inodesPerGroup * fs.gSb.inodeBytes +
        (n - 1) % fs.gSb.inodesPerGroup * fs.gSb.inodeBytes) := by
  have hsplit : (n - 1) * fs.gSb.inodeBytes =
      fs.gSb.groupOf n * fs.gSb.inodesPerGroup * fs.gSb.inodeBytes +
        (n - 1) % fs.gSb.inodesPerGroup * fs.gSb.inodeBytes := by
    rw [← Nat.add_mul, Superblock.groupOf, Nat.mul_comm (_ / _), Nat.div_add_mod]
  rw [← hsplit, FileSystem.blockAsked, entry_address hf.inode_dvd]

theorem FileSystem.recordAt_div {fs : FileSystem} (hf : fs.gSb.Formatted)
    (htable : fs.TableContinues (fs.gSb.groupOf n)) :
    fs.recordAt n / fs.gSb.blockBytes = fs.blockAsked n := by
  have hfit := hf.entry_fits (n - 1)
  have hmin := hf.inode_min
  rw [FileSystem.recordAt, htable, Nat.add_assoc, ← fs.blockAsked_mul hf n, Nat.add_comm,
    Nat.add_mul_div_right _ _ (by omega), Nat.div_eq_of_lt (by omega), Nat.zero_add]

/-- The drive byte behind the struct is the record's, when the LBA is not cut and the tables
follow each other. -/
theorem FileSystem.fetchedAt_eq_iff {fs : FileSystem} (hf : fs.gSb.Formatted)
    (hb : fs.gSb.blockBytes ≤ 4096) (hid : fs.blockAsked n ≤ 0x100000) :
    fs.fetchedAt n = fs.ext2StartLba * 512 + fs.recordAt n ↔
      fs.ext2StartLba + fs.blockAsked n * (fs.gSb.blockBytes / 512) < 268435456 ∧
        fs.TableContinues (fs.gSb.groupOf n) := by
  have haddr := fs.blockAsked_mul hf n
  have hmul : fs.blockAsked n * (fs.gSb.blockBytes / 512) * 512 =
      fs.blockAsked n * fs.gSb.blockBytes := by
    rw [Nat.mul_assoc, Nat.mul_comm _ 512, fs.gSb.sectors_mul]
  have hle : fs.blockAsked n * (fs.gSb.blockBytes / 512) ≤ 0x100000 * 8 :=
    Nat.mul_le_mul hid (by omega)
  have hfit := hf.entry_fits (n - 1)
  rw [FileSystem.fetchedAt, FileSystem.recordAt, FileSystem.TableContinues]
  generalize fs.blockAsked n * (fs.gSb.blockBytes / 512) = sector at *
  constructor
  · intro h
    have hlba : fs.ext2StartLba + sector < 268435456 := by omega
    exact ⟨hlba, by omega⟩
  · rintro ⟨hlba, htable⟩
    rw [Nat.mod_eq_of_lt hlba, htable, Nat.add_mul, Nat.add_assoc, hmul, haddr,
      Nat.add_assoc (bgInodeTable fs.fsGdt 0 * _)]

section
variable {fs : FileSystem} (hm : Mounted disk₀ fs) (hf : fs.gSb.Formatted)
  (hn : 1 ≤ n ∧ n ≤ fs.gSb.inodesCount)
include hm hf hn

theorem Mounted.blockAsked_lt (hb : fs.gSb.blockBytes ≤ 4096) : fs.blockAsked n < 4294967296 := by
  have hc := hf.inodesCount_le hb
  have hdiv := Nat.div_le_self (n - 1) (fs.gSb.blockBytes / fs.gSb.inodeBytes)
  have ht := hm.table.2
  rw [FileSystem.blockAsked]
  omega

theorem Mounted.readInode_eq (disk : Disk) (outInode : Mem) :
    readInode fs disk n outInode =
      (readFsBlock fs disk (wrap (fs.blockAsked n)) zeroed 0 4096).map fun buf i =>
        if i < fs.gSb.inodeBytes then
          buf (wrap ((n - 1) % (fs.gSb.blockBytes / fs.gSb.inodeBytes) * fs.gSb.inodeBytes) + i)
        else outInode i := by
  obtain ⟨hbs, his⟩ := hm.sizes_eq hf
  have hmin := hf.inode_min
  have hper := hf.inodesPerBlock_pos
  rw [readInode, if_neg (by omega), hbs, his, if_neg (by omega), if_neg (by omega),
    FileSystem.blockAsked]

/-- A call that comes back had room for the block and asked for one that is allowed. -/
theorem Mounted.readInode_ok (h : readInode fs disk n outInode = .ok inode) :
    fs.gSb.blockBytes ≤ 4096 ∧ fs.blockAsked n ≤ 0x100000 := by
  rw [hm.readInode_eq hf hn] at h
  cases hread : readFsBlock fs disk (wrap (fs.blockAsked n)) zeroed 0 4096 with
  | error e =>
    rw [hread] at h
    cases h
  | ok buf =>
    obtain ⟨hid, hcap, _⟩ := readFsBlock_ok hread
    rw [(hm.sizes_eq hf).1, Superblock.sectors_mul] at hcap
    rw [wrap_of_lt (hm.blockAsked_lt hf hn hcap)] at hid
    exact ⟨hcap, hid⟩

theorem Mounted.readInode_fetches (hb : fs.gSb.blockBytes ≤ 4096)
    (hid : fs.blockAsked n ≤ 0x100000) (disk : Disk) (outInode : Mem) :
    ∃ inode, readInode fs disk n outInode = .ok inode ∧
      ∀ k < 128, inode k = disk (fs.fetchedAt n + k) := by
  obtain ⟨hbs, -⟩ := hm.sizes_eq hf
  have hmin := hf.inode_min
  have hlt := hm.blockAsked_lt hf hn hb
  have hsec := fs.gSb.sectors_mul
  have hfit := hf.entry_fits (n - 1)
  rw [hm.readInode_eq hf hn, wrap_of_lt hlt, readFsBlock_of_le hid (by omega)]
  refine ⟨_, rfl, ?_⟩
  intro k hk
  have hmul : fs.blockAsked n * (fs.gSb.blockBytes / 512) ≤ 0x100000 * 8 :=
    Nat.mul_le_mul hid (by omega)
  have hoff : wrap ((n - 1) % (fs.gSb.blockBytes / fs.gSb.inodeBytes) * fs.gSb.inodeBytes) =
      (n - 1) % (fs.gSb.blockBytes / fs.gSb.inodeBytes) * fs.gSb.inodeBytes :=
    wrap_of_lt (by omega)
  dsimp only
  rw [if_pos (by omega), hbs, hoff, diskRead, if_pos (by omega), FileSystem.fetchedAt,
    wrap_of_lt (n := fs.blockAsked n * _) (by omega), wrap_mod_lba, Nat.sub_zero, Nat.add_assoc]

end

/-- `read_inode` follows the table of group 0 alone. It delivers an inode exactly when the block
fits its buffer, the record lies in a block up to 0x100000 that starts below LBA 2 ^ 28, and the
table of the inode's group continues the table of group 0. -/
theorem deliversInode_iff {fs : FileSystem} (hm : Mounted disk₀ fs) (hf : fs.gSb.Formatted)
    (hn : 1 ≤ n ∧ n ≤ fs.gSb.inodesCount) :
    fs.DeliversInode n ↔
      fs.gSb.blockBytes ≤ 4096 ∧ fs.recordAt n / fs.gSb.blockBytes ≤ 0x100000 ∧
        fs.ext2StartLba + fs.recordAt n / fs.gSb.blockBytes * (fs.gSb.blockBytes / 512) <
          268435456 ∧ fs.TableContinues (fs.gSb.groupOf n) := by
  constructor
  · intro h
    -- a drive that marks the first byte of the record and nothing else
    obtain ⟨inode, hread, hbyte⟩ := h
      (fun x => if x = fs.ext2StartLba * 512 + fs.recordAt n then 1 else 0) zeroed
    obtain ⟨hb, hid⟩ := hm.readInode_ok hf hn hread
    obtain ⟨inode', hread', hfetch⟩ := hm.readInode_fetches hf hn hb hid
      (fun x => if x = fs.ext2StartLba * 512 + fs.recordAt n then 1 else 0) zeroed
    obtain rfl : inode = inode' := Except.ok.inj (hread.symm.trans hread')
    have heq : fs.fetchedAt n = fs.ext2StartLba * 512 + fs.recordAt n := by
      have h₀ := (hfetch 0 (by decide)).symm.trans (hbyte 0 (by decide))
      simp only [Nat.add_zero, ↓reduceIte] at h₀
      by_contra hne
      rw [if_neg hne] at h₀
      cases h₀
    obtain ⟨hlba, htable⟩ := (FileSystem.fetchedAt_eq_iff hf hb hid).1 heq
    rw [FileSystem.recordAt_div hf htable]
    exact ⟨hb, hid, hlba, htable⟩
  · rintro ⟨hb, hid, hlba, htable⟩ disk outInode
    rw [FileSystem.recordAt_div hf htable] at hid hlba
    obtain ⟨inode, hread, hfetch⟩ := hm.readInode_fetches hf hn hb hid disk outInode
    rw [(FileSystem.fetchedAt_eq_iff hf hb hid).2 ⟨hlba, htable⟩] at hfetch
    exact ⟨inode, hread, hfetch⟩

/-- A drive that is zero but for a few bytes. -/
def sparseDisk (bytes : List (Nat × UInt8)) : Disk := fun x => (bytes.lookup x).getD 0

/-- A raw image with 1 KiB blocks and two groups of eight inodes. The tables of the groups are in
blocks 5 and 20; inode 2 is a directory and inode 9, the first of group 1, a regular file. -/
def twoGroupImage : Disk := sparseDisk
  [(1024, 16), (1044, 1), (1064, 8), (1080, 0x53), (1081, 0xEF), (2056, 5), (2088, 20),
    (5248, 0xED), (5249, 0x41), (20480, 0xA4), (20481, 0x81)]

def twoGroupSuperblock : Superblock := ⟨16, 1, 0, 8, 0xEF53, 0, 0⟩

theorem twoGroupSuperblock_formatted : twoGroupSuperblock.Formatted where
  block_fits := by decide
  inode_min := by decide
  inode_dvd := by decide
  group_pos := by decide
  bitmap := by decide
  descriptors := by decide

theorem exists_ok {x : Except Stuck α} {P : α → Prop} [DecidablePred P]
    (h : x.map (fun a => decide (P a)) = .ok true) : ∃ a, x = .ok a ∧ P a := by
  cases x with
  | error e => cases h
  | ok a => exact ⟨a, rfl, of_decide_eq_true (Except.ok.inj h)⟩

theorem mount_twoGroupImage : ∃ fs, mount twoGroupImage zeroed = .ok fs ∧
    fs.gSb = twoGroupSuperblock ∧ fs.ext2StartLba = 0 ∧ bgInodeTable fs.fsGdt 0 = 5 ∧
      bgInodeTable fs.fsGdt 1 = 20 ∧
      (readInode fs twoGroupImage 9 zeroed).map (fun inode => inode 0) = .ok 0 :=
  exists_ok (by decide +kernel)

theorem deliversInode_twoGroupImage : ∃ fs, Mounted twoGroupImage fs ∧ fs.gSb.Formatted ∧
    fs.DeliversInode 2 ∧ ¬ fs.DeliversInode 9 := by
  obtain ⟨fs, hmount, hsb, hstart, ht₀, ht₁, -⟩ := mount_twoGroupImage
  have hm := mount_mounted hmount
  have hf : fs.gSb.Formatted := hsb ▸ twoGroupSuperblock_formatted
  refine ⟨fs, hm, hf, ?_, ?_⟩
  · have hg : twoGroupSuperblock.groupOf 2 = 0 := by decide
    rw [deliversInode_iff hm hf (by rw [hsb]; decide), FileSystem.TableContinues,
      FileSystem.recordAt, hsb, hg, hstart, ht₀]
    decide
  · have hg : twoGroupSuperblock.groupOf 9 = 1 := by decide
    rw [deliversInode_iff hm hf (by rw [hsb]; decide), FileSystem.TableContinues,
      FileSystem.recordAt, hsb, hg, hstart, ht₀, ht₁]
    decide

/-- Of inode 9, the first of group 1, the struct gets a zero byte of block 6 where the record has
0xA4. -/
theorem readInode_misses_second_group : ∃ fs inode, mount twoGroupImage zeroed = .ok fs ∧
    fs.gSb.Formatted ∧ 9 ≤ fs.gSb.inodesCount ∧
      readInode fs twoGroupImage 9 zeroed = .ok inode ∧
      inode 0 ≠ twoGroupImage (fs.ext2StartLba * 512 + fs.recordAt 9 + 0) := by
  obtain ⟨fs, hmount, hsb, hstart, ht₀, ht₁, hread⟩ := mount_twoGroupImage
  have hg : twoGroupSuperblock.groupOf 9 = 1 := by decide
  cases hinode : readInode fs twoGroupImage 9 zeroed with
  | error e =>
    rw [hinode] at hread
    cases hread
  | ok inode =>
    rw [hinode] at hread
    have h₀ : inode 0 = 0 := Except.ok.inj hread
    refine ⟨fs, inode, hmount, hsb ▸ twoGroupSuperblock_formatted, ?_, hinode, ?_⟩
    · rw [hsb]
      decide
    · rw [h₀, FileSystem.recordAt, hsb, hg, hstart, ht₁]
      decide

end KernelCustom
