import KernelCustom.DiskRead
import KernelCustom.InodeTable

namespace KernelCustom
open Word32 ByteStore
set_option autoImplicit true

/-- The value that a register of the drive was last given. -/
def lastWrite (port : Nat) (writes : List (Nat × UInt8)) : Option UInt8 :=
  ((writes.filter fun w => w.1 = port).getLast?).map Prod.snd

/-- The LBA of a command: the low four bits of the device register over three bytes. No command, no
LBA. -/
def commandLba (writes : List (Nat × UInt8)) : Option Nat := do
  let _ ← lastWrite ataRegCommand writes
  let device ← lastWrite ataRegDevice writes
  let high ← lastWrite ataRegLbaHigh writes
  let mid ← lastWrite ataRegLbaMid writes
  let low ← lastWrite ataRegLbaLow writes
  some (16777216 * (device &&& 0x0F).toNat + 65536 * high.toNat + 256 * mid.toNat + low.toNat)

/-- `read_fs_block`, down to the ports. A block id that is too large is refused. -/
def readFsBlockIo (σ : Statuses) (fuel : Nat) (fs : FileSystem) (blockId buf : Nat)
    (io : DriveIo) : DiskEnd × DriveIo :=
  if 0x100000 < blockId then (.hung, io)
  else
    let sectors := fs.gBlockSize / 512
    let lba := wrap (blockId * sectors)
    diskReadEx σ fuel 0 (wrap (fs.ext2StartLba + lba)) buf sectors io

theorem device_low_bits (devsel : Nat) (hd : devsel = 0xE0 ∨ devsel = 0xF0) (n : Nat) :
    (UInt8.ofNat (devsel ||| (n &&& 0x0F)) &&& 0x0F).toNat = n % 16 := by
  have hall : ∀ k : Fin 16, (UInt8.ofNat (0xE0 ||| k.val) &&& 0x0F).toNat = k.val ∧
      (UInt8.ofNat (0xF0 ||| k.val) &&& 0x0F).toNat = k.val := by decide
  have hlow : n &&& 0x0F = n % 16 := Nat.and_two_pow_sub_one_eq_mod n 4
  rw [hlow]
  rcases hd with rfl | rfl
  · exact (hall ⟨n % 16, Nat.mod_lt _ (by decide)⟩).1
  · exact (hall ⟨n % 16, Nat.mod_lt _ (by decide)⟩).2

/-- The registers take the low 28 bits of the LBA. -/
theorem commandLba_writes (drive lba sectorCount : Nat) :
    commandLba (commandWrites drive lba sectorCount) = some (lba % 268435456) := by
  have hdevice := device_low_bits (if drive = 0 then 0xE0 else 0xF0)
    (by split <;> simp) (lba >>> 24)
  have hgiven : commandLba (commandWrites drive lba sectorCount) =
      some (16777216 * (UInt8.ofNat ((if drive = 0 then 0xE0 else 0xF0) |||
        ((lba >>> 24) &&& 0x0F)) &&& 0x0F).toNat + 65536 * (UInt8.ofNat (lba >>> 16)).toNat +
          256 * (UInt8.ofNat (lba >>> 8)).toNat + (UInt8.ofNat lba).toNat) := rfl
  rw [hgiven, hdevice]
  simp only [Nat.shiftRight_eq_div_pow, UInt8.toNat_ofNat']
  congr 1
  omega

/-- The command of a call that has sent one. -/
theorem diskReadEx_commandLba (σ : Statuses) (fuel drive lba buffer sectorCount : Nat) :
    commandLba (writesOf (diskReadEx σ fuel drive lba buffer sectorCount .start).2.log) =
      if (diskReadEx σ fuel drive lba buffer sectorCount .start).1 = .waiting then none
      else some (lba % 268435456) := by
  rcases diskReadEx_does σ fuel drive lba buffer sectorCount .start with
    ⟨hwait, hdoes⟩ | ⟨hsent, k, -, -, hdoes⟩
  · obtain ⟨-, hwrites, -⟩ := hdoes.from_start
    rw [hwrites, if_pos hwait]
    rfl
  · obtain ⟨-, hwrites, -⟩ := hdoes.from_start
    rw [hwrites, if_neg hsent, commandLba_writes]

/-- The memory after some transfers, when the drive gives its sectors one after the other. -/
def receive (disk : Disk) : Nat → List Transfer → Mem → Mem
  | _, [], m => m
  | sector, t :: ts, m => receive disk (sector + 1) ts fun x =>
    if t.addr ≤ x ∧ x - t.addr < 2 * t.words then disk (sector * 512 + (x - t.addr)) else m x

theorem receive_cons (disk : Disk) (sector addr : Nat) (ts : List Transfer) (m : Mem) :
    receive disk sector (sectorTransfer addr :: ts) m = receive disk (sector + 1) ts fun x =>
      if addr ≤ x ∧ x - addr < 2 * 256 then disk (sector * 512 + (x - addr)) else m x := rfl

theorem receive_sectors (disk : Disk) (sector : Nat) (m : Mem)
    (h : buffer + 512 * (i + n) ≤ 4294967296) (x : Nat) :
    receive disk (sector + i)
      ((List.range' i n).map fun j => sectorTransfer (wrap (buffer + 512 * j))) m x =
      if buffer + 512 * i ≤ x ∧ x < buffer + 512 * (i + n) then
        disk (sector * 512 + (x - buffer))
      else m x := by
  induction n generalizing i m with
  | zero =>
    rw [if_neg (by omega)]
    rfl
  | succ n ih =>
    have haddr : wrap (buffer + 512 * i) = buffer + 512 * i := wrap_of_lt (by omega)
    rw [List.range'_succ, List.map_cons, haddr, receive_cons, Nat.add_assoc sector,
      ih _ (by omega)]
    by_cases hrest : buffer + 512 * (i + 1) ≤ x ∧ x < buffer + 512 * (i + 1 + n)
    · rw [if_pos hrest, if_pos (by omega)]
    · rw [if_neg hrest]
      by_cases hfirst : buffer + 512 * i ≤ x ∧ x - (buffer + 512 * i) < 2 * 256
      · have hoff : (sector + i) * 512 + (x - (buffer + 512 * i)) =
            sector * 512 + (x - buffer) := by omega
        rw [if_pos hfirst, if_pos (by omega), hoff]
      · rw [if_neg hfirst, if_neg (by omega)]

/-- A call of `disk_read_ex` that returns has read what `diskRead` says, when the drive gives the
sectors from the LBA of the command on. -/
theorem diskReadEx_refines (disk : Disk) (m : Mem)
    (h : buffer + 512 * sectorCount ≤ 4294967296)
    (hret : (diskReadEx σ fuel drive lba buffer sectorCount .start).1 = .returned) :
    ∃ given, commandLba (writesOf
        (diskReadEx σ fuel drive lba buffer sectorCount .start).2.log) = some given ∧
      receive disk given (transfersOf
        (diskReadEx σ fuel drive lba buffer sectorCount .start).2.log) m =
        diskRead disk lba m buffer sectorCount := by
  rcases diskReadEx_does σ fuel drive lba buffer sectorCount .start with
    ⟨hwait, -⟩ | ⟨-, k, -, hall, hdoes⟩
  · rw [hret] at hwait
    cases hwait
  · obtain ⟨-, hwrites, hmoved⟩ := hdoes.from_start
    refine ⟨lba % 268435456, by rw [hwrites, commandLba_writes], ?_⟩
    rw [hmoved, hall.1 hret, List.range_eq_range']
    funext x
    have hbound : buffer + 512 * (0 + sectorCount) ≤ 4294967296 := by omega
    have hmem := receive_sectors disk (lba % 268435456) m hbound x
    rw [Nat.add_zero, Nat.mul_zero, Nat.add_zero, Nat.zero_add] at hmem
    rw [hmem, diskRead]

/-- The type and the start of an entry of the partition table of an MBR. -/
def partitionType (mbr : Mem) (i : Nat) : UInt8 := mbr (446 + 16 * i + 4)
def partitionStartLba (mbr : Mem) (i : Nat) : Nat := load32 mbr (446 + 16 * i + 8)

/-- Where an MBR says that the file system starts: at the first partition of type 0x83 when there is
a signature, otherwise at 0. -/
inductive StartsAt (mbr : Mem) : Nat → Prop where
  | partition (hsign : load16 mbr 510 = 0xAA55) (hi : i < 4) (htype : partitionType mbr i = 0x83)
      (hfirst : ∀ j, j < i → partitionType mbr j ≠ 0x83) : StartsAt mbr (partitionStartLba mbr i)
  | noPartition (hsign : load16 mbr 510 = 0xAA55)
      (hnone : ∀ i, i < 4 → partitionType mbr i ≠ 0x83) : StartsAt mbr 0
  | noSignature (hsign : load16 mbr 510 ≠ 0xAA55) : StartsAt mbr 0

theorem StartsAt.unique (h : StartsAt mbr start) (h' : StartsAt mbr start') : start = start' := by
  cases h with
  | @partition i hsign hi htype hfirst =>
    cases h' with
    | @partition i' _ hi' htype' hfirst' =>
      rcases Nat.lt_trichotomy i i' with hlt | heq | hlt
      · exact (hfirst' i hlt htype).elim
      · rw [heq]
      · exact (hfirst i' hlt htype').elim
    | noPartition _ hnone => exact (hnone i hi htype).elim
    | noSignature hno => exact (hno hsign).elim
  | noPartition hsign hnone =>
    cases h' with
    | @partition i' _ hi' htype' _ => exact (hnone i' hi' htype').elim
    | noPartition _ _ => rfl
    | noSignature _ => rfl
  | noSignature hno =>
    cases h' with
    | partition hsign _ _ _ => exact (hno hsign).elim
    | noPartition hsign _ => exact (hno hsign).elim
    | noSignature _ => rfl

/-- The first sector of the drive, read into a buffer at 0. -/
theorem diskRead_mbr (disk : Disk) (hx : x < 512) : diskRead disk 0 zeroed 0 1 x = disk x := by
  rw [diskRead, if_pos (by omega)]
  congr 1
  omega

/-- `probe_ext2_partition` finds where the file system starts. -/
theorem probeExt2Partition_startsAt (disk : Disk) : StartsAt disk (probeExt2Partition disk) := by
  have hsame : SameOn disk (diskRead disk 0 zeroed 0 1) 0 512 :=
    fun x _ hx => diskRead_mbr disk hx
  have hsign := hsame.load16 (a := 510) (by decide) (by decide)
  have htypes : ∀ i, i < 4 → diskRead disk 0 zeroed 0 1 (446 + 16 * i + 4) = partitionType disk i :=
    fun i hi => diskRead_mbr disk (by omega)
  rw [probeExt2Partition]
  split
  · next hmbr =>
    rw [hsign] at hmbr
    split
    · next i hfind =>
      obtain ⟨htype, hi, hfirst⟩ := List.find?_range_eq_some.1 hfind
      rw [List.mem_range] at hi
      rw [decide_eq_true_eq, htypes i hi] at htype
      rw [hsame.load32 (Nat.zero_le _) (by omega)]
      refine .partition hmbr hi htype fun j hj htype' => ?_
      have hno := hfirst j hj
      rw [htypes j (by omega), htype'] at hno
      cases hno
    · next hfind =>
      refine .noPartition hmbr fun i hi htype => ?_
      have hno := List.find?_eq_none.1 hfind i (List.mem_range.2 hi)
      rw [htypes i hi, htype] at hno
      exact hno rfl
  · next hmbr =>
    rw [hsign] at hmbr
    exact .noSignature hmbr

/-- Whenever `read_fs_block` sends a command for a block, the command has the LBA. -/
def ReadsFrom (fs : FileSystem) (blockId lba : Nat) : Prop :=
  ∀ σ fuel buf, ∀ given ∈
    commandLba (writesOf (readFsBlockIo σ fuel fs blockId buf .start).2.log), given = lba

/-- The command of an accepted block has the low 28 bits of the sum. -/
theorem readsFrom_iff (fs : FileSystem) (hid : blockId ≤ 0x100000) (lba : Nat) :
    ReadsFrom fs blockId lba ↔
      (fs.ext2StartLba + blockId * (fs.gBlockSize / 512)) % 268435456 = lba := by
  have hsum : wrap (fs.ext2StartLba + wrap (blockId * (fs.gBlockSize / 512))) % 268435456 =
      (fs.ext2StartLba + blockId * (fs.gBlockSize / 512)) % 268435456 := by
    rw [wrap_add_wrap]
    exact Nat.mod_mod_of_dvd _ (by decide)
  constructor
  · intro h
    have hends := diskReadEx_ends (fun _ => 0x08) (k := 0) (by decide) Nat.zero_lt_one 0
      (wrap (fs.ext2StartLba + wrap (blockId * (fs.gBlockSize / 512)))) 0 (fs.gBlockSize / 512)
    have hgiven := h (fun _ => 0x08) 1 0 (wrap (fs.ext2StartLba +
      wrap (blockId * (fs.gBlockSize / 512))) % 268435456)
    rw [readFsBlockIo, if_neg (by omega)] at hgiven
    simp only [diskReadEx_commandLba, if_neg hends, Option.mem_some_iff, forall_const] at hgiven
    rw [← hsum]
    exact hgiven
  · intro heq σ fuel buf given hgiven
    rw [readFsBlockIo, if_neg (by omega)] at hgiven
    simp only [diskReadEx_commandLba] at hgiven
    split at hgiven
    · cases hgiven
    · rw [Option.mem_some_iff] at hgiven
      rw [← hgiven, hsum, heq]

/-- Blocks are read from where the partition says exactly when their LBA has at most 28 bits. -/
theorem block_address_iff {fs : FileSystem} {start : Nat} (hmbr : StartsAt disk start)
    (hstart : fs.ext2StartLba = probeExt2Partition disk) (blockId : Nat) :
    ReadsFrom fs blockId (start + blockId * (fs.gBlockSize / 512)) ↔
      (blockId ≤ 0x100000 → start + blockId * (fs.gBlockSize / 512) < 268435456) := by
  have hprobe : fs.ext2StartLba = start :=
    hstart.trans ((probeExt2Partition_startsAt disk).unique hmbr)
  by_cases hid : blockId ≤ 0x100000
  · rw [readsFrom_iff fs hid, hprobe]
    generalize start + blockId * (fs.gBlockSize / 512) = lba
    constructor
    · intro heq _
      omega
    · intro hlt
      exact Nat.mod_eq_of_lt (hlt hid)
  · refine iff_of_true (fun σ fuel buf given hgiven => ?_) fun h => (hid h).elim
    rw [readFsBlockIo, if_pos (by omega)] at hgiven
    cases hgiven

/-- A drive whose first partition has the type 0x83 and starts at an LBA with a given high byte and
low halfword. -/
def partitionedDisk (high mid low : UInt8) : Disk := sparseDisk
  [(450, 0x83), (454, low), (455, mid), (457, high), (510, 0x55), (511, 0xAA)]

/-- The file system of such a drive, with 1 KiB blocks. -/
def partitionedFs (start : Nat) : FileSystem := ⟨start, 1024, 128, 8, twoGroupSuperblock, zeroed⟩

theorem block_address_near_start : StartsAt (partitionedDisk 0 8 0) 2048 ∧
    ReadsFrom (partitionedFs 2048) 2 (2048 + 2 * 2) := by
  have hprobe : probeExt2Partition (partitionedDisk 0 8 0) = 2048 := by decide +kernel
  have hmbr : StartsAt (partitionedDisk 0 8 0) 2048 := hprobe ▸ probeExt2Partition_startsAt _
  have hstart : (partitionedFs 2048).ext2StartLba = probeExt2Partition (partitionedDisk 0 8 0) :=
    hprobe.symm
  have hiff := block_address_iff hmbr hstart 2
  exact ⟨hmbr, hiff.2 fun _ => by decide⟩

/-- With a partition at LBA 2 ^ 28, block 2 is read from LBA 4. -/
theorem block_read_from_wrong_place : StartsAt (partitionedDisk 0x10 0 0) 0x10000000 ∧
    (partitionedFs 0x10000000).ext2StartLba = probeExt2Partition (partitionedDisk 0x10 0 0) ∧
    ReadsFrom (partitionedFs 0x10000000) 2 4 ∧
    ¬ ReadsFrom (partitionedFs 0x10000000) 2 (0x10000000 + 2 * 2) := by
  have hprobe : probeExt2Partition (partitionedDisk 0x10 0 0) = 0x10000000 := by decide +kernel
  refine ⟨hprobe ▸ probeExt2Partition_startsAt _, hprobe.symm, ?_, ?_⟩
  · rw [readsFrom_iff _ (by decide)]
    rfl
  · rw [readsFrom_iff _ (by decide)]
    decide

end KernelCustom
