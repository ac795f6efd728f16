import KernelCustom.Directory
import KernelCustom.InodeTable

namespace KernelCustom
open Word32 ByteStore CString
set_option autoImplicit true

/-- A call that, if it does not come back, is lost in none of these ways. -/
def Avoids (bad : Stuck → Prop) (x : Except Stuck α) : Prop := ∀ e, x = .error e → ¬ bad e

/-- No division by zero, and no block that does not fit its buffer. -/
def Harmless (x : Except Stuck α) : Prop := x ≠ .error .divZero ∧ x ≠ .error .overrun

section
variable {bad : Stuck → Prop}

theorem Avoids.ok (a : α) : Avoids bad (.ok a) := nofun

theorem Avoids.error (h : ¬ bad e) : Avoids bad (.error e : Except Stuck α) := by
  rintro _ ⟨⟩
  exact h

theorem Avoids.bind {x : Except Stuck α} {f : α → Except Stuck β} (hx : Avoids bad x)
    (hf : ∀ a, x = .ok a → Avoids bad (f a)) : Avoids bad (x >>= f) := by
  cases x with
  | error e =>
    rintro _ ⟨⟩
    exact hx e rfl
  | ok a => exact hf a rfl

theorem Avoids.map {x : Except Stuck α} (hx : Avoids bad x) (f : α → β) :
    Avoids bad (x.map f) := by
  cases x with
  | error e =>
    rintro _ ⟨⟩
    exact hx e rfl
  | ok a => exact .ok (f a)

theorem harmless_iff {x : Except Stuck α} :
    Harmless x ↔ Avoids (fun e => e = .divZero ∨ e = .overrun) x := by
  constructor
  · rintro ⟨hdiv, hover⟩ e rfl (rfl | rfl)
    · exact hdiv rfl
    · exact hover rfl
  · exact fun h => ⟨fun heq => h _ heq (.inl rfl), fun heq => h _ heq (.inr rfl)⟩

end

section
variable {bad : Stuck → Prop} {fs : FileSystem} {disk : Disk}
  (hhang : ¬ bad .hang) (hread : ∀ blockId m buf capacity,
    capacity = 4096 ∨ capacity = fs.gBlockSize →
      Avoids bad (readFsBlock fs disk blockId m buf capacity))
include hhang hread

theorem readInode_avoids (hdiv : fs.gInodeSize = 0 → ¬ bad .divZero) (n : Nat) (outInode : Mem) :
    Avoids bad (readInode fs disk n outInode) := by
  rw [readInode]
  split
  · exact .ok _
  dsimp only
  split
  · next hz => exact .error (hdiv hz)
  split
  · exact .error hhang
  · exact (hread _ _ _ _ (.inl rfl)).map _

theorem blockIdOf_avoids (L : Layout) (inode : Mem) (blk : Nat) (st : Scan σ) :
    Avoids bad (blockIdOf L fs disk inode blk st) := by
  rw [blockIdOf]
  split
  · exact .ok _
  split
  · exact .ok _
  · apply Avoids.bind
    · rw [openIndirect]
      split
      · exact .ok _
      split
      · exact .error hhang
      split
      · exact .ok _
      · exact (hread _ _ _ _ (.inr rfl)).map _
    · intro st' _
      dsimp only
      split
      · exact .ok _
      split
      · exact .ok _
      · exact .ok _

theorem scanBlock_avoids (visit : Visit σ) (blockId : Nat) (st : Scan σ) :
    Avoids bad (scanBlock fs disk visit blockId st) := by
  apply Avoids.bind (hread _ _ _ _ (.inl rfl))
  intro buf _
  split
  · exact .error hhang
  · exact .ok _

theorem scanBlocks_avoids (L : Layout) (visit : Visit σ) (inode : Mem) (left blk : Nat)
    (st : Scan σ) : Avoids bad (scanBlocks L fs disk visit inode left blk st) := by
  induction left generalizing blk st with
  | zero => exact .ok st
  | succ left ih =>
    apply Avoids.bind (blockIdOf_avoids hhang hread L inode blk st)
    rintro ⟨st', blockId⟩ _
    dsimp only
    split
    · exact .ok _
    · exact ih _ _
    · apply Avoids.bind (scanBlock_avoids hhang hread visit _ _)
      rintro ⟨st'', stop⟩ _
      dsimp only
      split
      · exact .ok _
      · exact ih _ _

theorem scanDirectory_avoids (hdiv : fs.gBlockSize = 0 → ¬ bad .divZero) (L : Layout)
    (visit : Visit σ) (inode : Mem) (st : Scan σ) :
    Avoids bad (scanDirectory L fs disk visit inode st) := by
  rw [scanDirectory]
  split
  · next hz => exact .error (hdiv hz)
  dsimp only
  split
  · exact .ok _
  · exact (scanBlocks_avoids hhang hread L visit inode _ _ st).map _

end

section
variable (fs : FileSystem) (disk : Disk)

theorem readFsBlock_keeps_frame (blockId : Nat) (m : Mem) (buf capacity : Nat) :
    Avoids (· = .smashed) (readFsBlock fs disk blockId m buf capacity) := by
  rw [readFsBlock]
  split
  · exact .error (by simp)
  dsimp only
  split
  · exact .error (by simp)
  · exact .ok _

theorem readInode_keeps_frame (n : Nat) (outInode : Mem) :
    readInode fs disk n outInode ≠ .error .smashed := by
  have havoids : Avoids (· = .smashed) (readInode fs disk n outInode) :=
    readInode_avoids (by simp) (fun _ _ _ _ _ => readFsBlock_keeps_frame fs disk _ _ _ _)
      (by simp) n outInode
  exact fun heq => havoids _ heq rfl

/-- Of the scanners only the copy of the inode can run over the frame. -/
theorem scanDirectory_keeps_frame (L : Layout) (visit : Visit σ) (inode : Mem) (st : Scan σ) :
    scanDirectory L fs disk visit inode st ≠ .error .smashed := by
  have havoids : Avoids (· = .smashed) (scanDirectory L fs disk visit inode st) :=
    scanDirectory_avoids (by simp) (fun _ _ _ _ _ => readFsBlock_keeps_frame fs disk _ _ _ _)
      (by simp) L visit inode st
  exact fun heq => havoids _ heq rfl

end

theorem readFsBlock_harmless (h : fs.gBlockSize ≤ capacity) :
    Harmless (readFsBlock fs disk blockId m buf capacity) := by
  rw [harmless_iff]
  by_cases hid : blockId ≤ 0x100000
  · rw [readFsBlock_of_le hid h]
    exact .ok _
  · rw [readFsBlock, if_pos (by omega)]
    exact .error (by simp)

section
variable {fs : FileSystem} (disk : Disk) (hb : fs.gBlockSize ≤ 4096)
include hb

theorem readInode_harmless (hi : fs.gInodeSize ≠ 0) (n : Nat) (outInode : Mem) :
    Harmless (readInode fs disk n outInode) := by
  rw [harmless_iff]
  refine readInode_avoids (by simp) (fun _ _ _ _ hcap => ?_) (fun hz => absurd hz hi) n outInode
  exact harmless_iff.1 (readFsBlock_harmless (by omega))

theorem scanDirectory_harmless (L : Layout) (hpos : fs.gBlockSize ≠ 0) (visit : Visit σ)
    (inode : Mem) (st : Scan σ) : Harmless (scanDirectory L fs disk visit inode st) := by
  rw [harmless_iff]
  refine scanDirectory_avoids (by simp) (fun _ _ _ _ hcap => ?_) (fun hz => absurd hz hpos) L visit
    inode st
  exact harmless_iff.1 (readFsBlock_harmless (by omega))

/-- What the scanners have in common: the inode is read, and a directory is scanned. -/
theorem scanner_harmless (L : Layout) (hpos : fs.gBlockSize ≠ 0) (hi : fs.gInodeSize ≠ 0)
    (visit : Visit σ) (dir : Nat) (inode : Mem) (st st' : Scan σ) :
    Harmless (readLocalInode fs disk dir inode >>= fun inode =>
      if isDirectory inode then scanDirectory L fs disk visit inode st else .ok st') := by
  have hlocal : Harmless (readLocalInode fs disk dir inode) := by
    rw [harmless_iff]
    refine Avoids.bind (harmless_iff.1 (readInode_harmless disk hb hi dir inode)) fun out _ => ?_
    split
    · exact .error (by simp)
    · exact .ok out
  rw [harmless_iff]
  refine Avoids.bind (harmless_iff.1 hlocal) fun inode' _ => ?_
  split
  · exact harmless_iff.1 (scanDirectory_harmless disk hb L hpos visit inode' st)
  · exact .ok st'

end

/-- The superblock that `kmain` reads. -/
def bootSuperblock (disk : Disk) : Superblock :=
  readSuperblock (diskRead disk (wrap (probeExt2Partition disk + 2)) zeroed 0 2)

/-- The block size fits the static buffers, and neither mounting nor a scan of a directory after it
divides by zero or reads a block past its buffer. -/
structure SafeMount (disk : Disk) : Prop where
  block_le : ∀ fs, fsInit (probeExt2Partition disk) (bootSuperblock disk) = .ok fs →
    fs.gBlockSize ≤ 4096
  mount : ∀ rootInode, Harmless (mount disk rootInode)
  find : ∀ rootInode fs, KernelCustom.mount disk rootInode = .ok fs →
    ∀ L heap blockBuf inode dir name,
      Harmless (findInodeInDir L disk heap blockBuf inode fs dir name)
  lookup : ∀ rootInode fs, KernelCustom.mount disk rootInode = .ok fs →
    ∀ L heap blockBuf inode dir name,
      Harmless (ext2Lookup L disk heap blockBuf inode fs dir name)
  ls : ∀ rootInode fs, KernelCustom.mount disk rootInode = .ok fs →
    ∀ L heap blockBuf inode dir out,
      Harmless (ext2Ls L disk heap blockBuf inode (some fs) dir out)

/-- The block sizes that `fs_init` can compute: those that fit, `0`, and larger ones. -/
theorem shifted_block_le (k : Nat) :
    wrap (1024 <<< (k % 32)) ≤ 4096 ↔ k % 32 ≤ 2 ∨ 22 ≤ k % 32 := by
  have hall : ∀ j < 32, wrap (1024 <<< j) ≤ 4096 ↔ j ≤ 2 ∨ 22 ≤ j := by decide
  exact hall _ (Nat.mod_lt _ (by decide))

/-- A drive with blocks of no bytes is not mounted: its descriptor block stays empty. -/
theorem Mounted.block_pos (h : Mounted disk fs) : fs.gBlockSize ≠ 0 := by
  intro hz
  apply h.table.1
  rw [h.descriptors, hz, Nat.zero_div]
  have hempty : ∀ lba x, diskRead disk lba zeroed 0 0 x = 0 := by
    intro lba x
    rw [diskRead, if_neg (by omega)]
    rfl
  simp only [bgInodeTable, load32, hempty]
  rfl

/-- A drive that is mounted has blocks of 1, 2 or 4 KiB. -/
theorem mount_blockSize (h : mount disk root = .ok fs) :
    fs.gBlockSize = 1024 ∨ fs.gBlockSize = 2048 ∨ fs.gBlockSize = 4096 := by
  have hm := mount_mounted h
  have hshift := (fsInit_ok hm.sizes).1
  have hpos := hm.block_pos
  have hfit : 512 * (fs.gBlockSize / 512) ≤ 4096 := by
    rw [mount] at h
    split at h
    · obtain ⟨fs₀, hinit, h⟩ := bind_ok h
      obtain ⟨gdt, hgdt, h⟩ := bind_ok h
      dsimp only at h
      split at h
      · cases h
      · obtain ⟨root', _, h⟩ := bind_ok h
        split at h
        · cases h
          exact (readFsBlock_ok hgdt).2.1
        · cases h
    · cases h
  have hall : ∀ j < 32, wrap (1024 <<< j) ≠ 0 → 512 * (wrap (1024 <<< j) / 512) ≤ 4096 →
      wrap (1024 <<< j) = 1024 ∨ wrap (1024 <<< j) = 2048 ∨ wrap (1024 <<< j) = 4096 := by
    decide
  dsimp only at hshift
  rw [hshift] at hpos hfit ⊢
  exact hall _ (Nat.mod_lt _ (by decide)) hpos hfit

theorem fsInit_cases (start : Nat) (sb : Superblock) :
    (sb.inodeBytes = 0 ∧ fsInit start sb = .error .divZero) ∨
      (sb.inodeBytes ≠ 0 ∧ ∃ fs, fsInit start sb = .ok fs) := by
  by_cases hz : (if 1 ≤ sb.revLevel then sb.inodeSize else 128) = 0
  · refine .inl ⟨hz, ?_⟩
    rw [fsInit, if_pos hz]
  · refine .inr ⟨hz, ?_⟩
    rw [fsInit, if_neg hz]
    exact ⟨_, rfl⟩

theorem fsInit_inode_pos (h : fsInit start sb = .ok fs) : fs.gInodeSize ≠ 0 := by
  rcases fsInit_cases start sb with ⟨-, he⟩ | ⟨hne, -⟩
  · rw [he] at h
    cases h
  · rw [(fsInit_ok h).2.1]
    exact hne

theorem Superblock.inodeBytes_pos (sb : Superblock) :
    sb.inodeBytes ≠ 0 ↔ sb.revLevel = 0 ∨ sb.inodeSize ≠ 0 := by
  rw [Superblock.inodeBytes]
  split <;> omega

theorem mount_harmless (hmagic : (bootSuperblock disk).magic = 0xEF53)
    (hinit : fsInit (probeExt2Partition disk) (bootSuperblock disk) = .ok fs)
    (hb : fs.gBlockSize ≤ 4096) (rootInode : Mem) : Harmless (mount disk rootInode) := by
  have hi := fsInit_inode_pos hinit
  rw [bootSuperblock] at hmagic hinit
  rw [harmless_iff]
  simp only [mount, if_pos hmagic]
  rw [hinit]
  apply Avoids.bind (.ok fs)
  rintro _ ⟨⟩
  apply Avoids.bind (harmless_iff.1 (readFsBlock_harmless hb))
  intro gdt _
  split
  · exact .error (by simp)
  · apply Avoids.bind
    · exact harmless_iff.1 (@readInode_harmless { fs with fsGdt := gdt } disk hb hi 2 rootInode)
    · intro root _
      split
      · exact .ok _
      · exact .error (by simp)

theorem mount_divZero (hmagic : (bootSuperblock disk).magic = 0xEF53)
    (hz : (bootSuperblock disk).inodeBytes = 0) (rootInode : Mem) :
    mount disk rootInode = .error .divZero := by
  rcases fsInit_cases (probeExt2Partition disk) (bootSuperblock disk) with ⟨-, he⟩ | ⟨hne, -⟩
  · rw [bootSuperblock] at hmagic he
    simp only [mount, if_pos hmagic]
    rw [he]
    rfl
  · exact absurd hz hne

/-- A file system that is mounted has sizes that the scanners can divide by. -/
theorem mount_fits (hle : ∀ fs, fsInit (probeExt2Partition disk) (bootSuperblock disk) = .ok fs →
      fs.gBlockSize ≤ 4096)
    (hmount : mount disk rootInode = .ok fs) :
    fs.gBlockSize ≤ 4096 ∧ fs.gBlockSize ≠ 0 ∧ fs.gInodeSize ≠ 0 := by
  have hm := mount_mounted hmount
  have hinit := hm.sizes
  have hb := hle { fs with fsGdt := zeroed }
  have hi : fs.gInodeSize ≠ 0 := @fsInit_inode_pos _ _ { fs with fsGdt := zeroed } hinit
  have hsb : fs.gSb = bootSuperblock disk := by
    rw [hm.superblock, hm.start, bootSuperblock]
  rw [← hsb, ← hm.start] at hb
  exact ⟨hb hinit, hm.block_pos, hi⟩

/-- Mounting is safe exactly for superblocks whose inode size is not zero and whose shift gives a
block of at most 4096 bytes. -/
theorem safeMount_iff (hmagic : (bootSuperblock disk).magic = 0xEF53) :
    SafeMount disk ↔
      ((bootSuperblock disk).revLevel = 0 ∨ (bootSuperblock disk).inodeSize ≠ 0) ∧
        ((bootSuperblock disk).logBlockSize % 32 ≤ 2 ∨
          22 ≤ (bootSuperblock disk).logBlockSize % 32) := by
  rw [← shifted_block_le, ← Superblock.inodeBytes_pos]
  constructor
  · intro h
    rcases fsInit_cases (probeExt2Partition disk) (bootSuperblock disk) with
      ⟨hz, -⟩ | ⟨hne, fs, hinit⟩
    · exact absurd (mount_divZero hmagic hz zeroed) (h.mount zeroed).1
    · refine ⟨hne, ?_⟩
      rw [← (fsInit_ok hinit).1]
      exact h.block_le fs hinit
  · rintro ⟨hne, hblock⟩
    have hle : ∀ fs, fsInit (probeExt2Partition disk) (bootSuperblock disk) = .ok fs →
        fs.gBlockSize ≤ 4096 := by
      intro fs hinit
      rw [(fsInit_ok hinit).1]
      exact hblock
    constructor
    case block_le => exact hle
    case mount =>
      intro rootInode
      rcases fsInit_cases (probeExt2Partition disk) (bootSuperblock disk) with
        ⟨hz, -⟩ | ⟨-, fs, hinit⟩
      · exact absurd hz hne
      · exact mount_harmless hmagic hinit (hle fs hinit) rootInode
    case find =>
      intro rootInode fs hmount L heap blockBuf inode dir name
      obtain ⟨hb, hpos, hi⟩ := mount_fits hle hmount
      exact scanner_harmless disk hb L hpos hi _ dir inode _ _
    case lookup =>
      intro rootInode fs hmount L heap blockBuf inode dir name
      obtain ⟨hb, hpos, hi⟩ := mount_fits hle hmount
      exact scanner_harmless disk hb L hpos hi _ dir inode _ _
    case ls =>
      intro rootInode fs hmount L heap blockBuf inode dir out
      obtain ⟨hb, hpos, hi⟩ := mount_fits hle hmount
      exact scanner_harmless disk hb L hpos hi _ dir inode _ _

theorem safeMount_twoGroupImage : SafeMount twoGroupImage :=
  (safeMount_iff (by decide +kernel)).2 (by decide +kernel)

/-- The image of two groups, in revision 1 and with an inode size of zero. -/
def noInodeSizeImage : Disk := sparseDisk
  [(1024, 16), (1044, 1), (1064, 8), (1080, 0x53), (1081, 0xEF), (1100, 1), (2056, 5)]

/-- `fs_init` divides by the inode size of the superblock. -/
theorem mount_divides_by_zero : (bootSuperblock noInodeSizeImage).magic = 0xEF53 ∧
    mount noInodeSizeImage zeroed = .error .divZero ∧ ¬ SafeMount noInodeSizeImage := by
  have hmagic : (bootSuperblock noInodeSizeImage).magic = 0xEF53 := by decide +kernel
  have hdiv := mount_divZero hmagic (by decide +kernel) zeroed
  exact ⟨hmagic, hdiv, fun h => (h.mount zeroed).1 hdiv⟩

end KernelCustom
