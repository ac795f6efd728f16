import KernelCustom.DriveIo

namespace KernelCustom
open Word32
set_option autoImplicit true

/-- Where a call of `disk_read_ex` is: still in its first loop, in the loop without an end, or
back. -/
inductive DiskEnd where
  | waiting
  | hung
  | returned
  deriving DecidableEq

/-- `while (inb(ATA_REG_STATUS) & ATA_SR_BSY)`, for a bounded number of rounds; `true` when it has
ended. -/
def waitIdle (σ : Statuses) : Nat → DriveIo → Bool × DriveIo
  | 0, io => (false, io)
  | fuel + 1, io =>
    let r := io.inb σ ataRegStatus
    if isSet r.1 ataSrBsy then waitIdle σ fuel r.2 else (true, r.2)

/-- What the poll loop for a sector leaves in `timeout` and `status`. -/
structure SectorPoll where
  timeout : Int
  status : UInt8
  io : DriveIo

/-- The loop `while (timeout--)`. -/
def pollSector (σ : Statuses) : Nat → UInt8 → DriveIo → SectorPoll
  | 0, status, io => ⟨-1, status, io⟩
  | timeout + 1, _, io =>
    let r := io.inb σ ataRegAltstatus
    if isSet r.1 ataSrErr then ⟨timeout, r.1, r.2⟩
    else if isSet r.1 ataSrBsy = false ∧ isSet r.1 ataSrDrq then ⟨timeout, r.1, r.2⟩
    else pollSector σ timeout r.1 r.2

/-- The loop `while (error_count < 3)`, by the attempts that are left; `true` when the sector has
been transferred. -/
def readSector (σ : Statuses) (sectorBuffer : Nat) : Nat → UInt8 → DriveIo → Bool × DriveIo
  | 0, _, io => (false, io)
  | attempts + 1, status, io =>
    let p := pollSector σ 1000000 status io
    if 0 < p.timeout ∧ isSet p.status ataSrErr = false then
      (true, p.io.insw ataRegData sectorBuffer 256)
    else readSector σ sectorBuffer attempts p.status p.io

/-- The loop over the sectors, from the `i`-th on, by the number of those left. The uninitialised
`status` of a round is never looked at: the poll loop reads it first. -/
def readSectors (σ : Statuses) (buffer : Nat) : Nat → Nat → DriveIo → DiskEnd × DriveIo
  | 0, _, io => (.returned, io)
  | left + 1, i, io =>
    let r := readSector σ (wrap (buffer + wrap (i * 512))) 3 0 io
    if r.1 then readSectors σ buffer left (i + 1) r.2 else (.hung, r.2)

/-- The registers that a command needs, and the command. -/
def sendReadCommand (drive lba sectorCount : Nat) (io : DriveIo) : DriveIo :=
  let devsel := if drive = 0 then 0xE0 else 0xF0
  let io := io.outb ataRegDevice (UInt8.ofNat (devsel ||| ((lba >>> 24) &&& 0x0F)))
  let io := io.outb ataRegSeccount (UInt8.ofNat sectorCount)
  let io := io.outb ataRegLbaLow (UInt8.ofNat lba)
  let io := io.outb ataRegLbaMid (UInt8.ofNat (lba >>> 8))
  let io := io.outb ataRegLbaHigh (UInt8.ofNat (lba >>> 16))
  io.outb ataRegCommand 0x20

/-- `disk_read_ex`, with a bound on the rounds of its first loop. -/
def diskReadEx (σ : Statuses) (fuel drive lba buffer sectorCount : Nat) (io : DriveIo) :
    DiskEnd × DriveIo :=
  let r := waitIdle σ fuel io
  if r.1 then readSectors σ buffer sectorCount 0 (sendReadCommand drive lba sectorCount r.2)
  else (.waiting, r.2)

theorem waitIdle_reads (σ : Statuses) (fuel : Nat) (io : DriveIo) :
    ∃ ext, (waitIdle σ fuel io).2.log = io.log ++ ext ∧ OnlyReads ext := by
  induction fuel generalizing io with
  | zero => exact ⟨[], (List.append_nil _).symm, List.forall_mem_nil _⟩
  | succ fuel ih =>
    rw [waitIdle]
    split
    · obtain ⟨ext, hlog, hreads⟩ := ih (io.inb σ ataRegStatus).2
      refine ⟨.inb ataRegStatus (σ io.reads) :: ext, ?_, ?_⟩
      · rw [hlog, DriveIo.inb, List.append_assoc]
        rfl
      · exact List.forall_mem_cons.2 ⟨⟨_, _, rfl⟩, hreads⟩
    · exact ⟨[.inb ataRegStatus (σ io.reads)], rfl, List.forall_mem_singleton.2 ⟨_, _, rfl⟩⟩

/-- Once the drive is not busy, the first loop ends. -/
theorem waitIdle_ends (h : isSet (σ (io.reads + k)) ataSrBsy = false) (hk : k < fuel) :
    (waitIdle σ fuel io).1 = true := by
  induction fuel generalizing io k with
  | zero => omega
  | succ fuel ih =>
    rw [waitIdle]
    split
    · next hbusy =>
      cases k with
      | zero =>
        rw [DriveIo.inb_value] at hbusy
        rw [Nat.add_zero, hbusy] at h
        cases h
      | succ k =>
        apply ih (k := k)
        · rw [DriveIo.inb_reads, Nat.add_assoc, Nat.add_comm 1]
          exact h
        · omega
    · rfl

/-- The poll loop reads the status only. When it leaves a positive time-out and no error, the last
status says that the drive gives data. -/
theorem pollSector_reads (σ : Statuses) (timeout : Nat) (status : UInt8) (io : DriveIo) :
    ∃ ext, (pollSector σ timeout status io).io.log = io.log ++ ext ∧ OnlyReads ext ∧
      (0 < (pollSector σ timeout status io).timeout →
        isSet (pollSector σ timeout status io).status ataSrErr = false →
        ∃ pre, ext = pre ++ [.inb ataRegAltstatus (pollSector σ timeout status io).status] ∧
          givesData (pollSector σ timeout status io).status) := by
  induction timeout generalizing status io with
  | zero =>
    refine ⟨[], (List.append_nil _).symm, List.forall_mem_nil _, fun hpos => ?_⟩
    have hneg : (0 : Int) < -1 := hpos
    exact absurd hneg (by decide)
  | succ timeout ih =>
    have hone : OnlyReads [.inb ataRegAltstatus (σ io.reads)] :=
      List.forall_mem_singleton.2 ⟨_, _, rfl⟩
    rw [pollSector]
    split
    · next herr =>
      refine ⟨_, rfl, hone, fun _ hok => ?_⟩
      rw [herr] at hok
      cases hok
    · split
      · next herr hready =>
        refine ⟨_, rfl, hone, fun _ _ => ⟨[], rfl, hready.1, hready.2, ?_⟩⟩
        simpa using herr
      · obtain ⟨ext, hlog, hreads, hlast⟩ := ih (σ io.reads) (io.inb σ ataRegAltstatus).2
        refine ⟨.inb ataRegAltstatus (σ io.reads) :: ext, ?_, ?_, fun hpos hok => ?_⟩
        · rw [DriveIo.inb_value, hlog, DriveIo.inb, List.append_assoc]
          rfl
        · exact List.forall_mem_cons.2 ⟨⟨_, _, rfl⟩, hreads⟩
        · obtain ⟨pre, hext, hdata⟩ := hlast hpos hok
          exact ⟨.inb ataRegAltstatus (σ io.reads) :: pre, by rw [hext]; rfl, hdata⟩

/-- The transfer of a sector. -/
def sectorTransfer (addr : Nat) : Transfer := ⟨ataRegData, addr, 256⟩

/-- The attempts at a sector make one transfer or none. -/
theorem readSector_does (σ : Statuses) (sectorBuffer attempts : Nat) (status : UInt8)
    (io : DriveIo) : DriveIo.Does io (readSector σ sectorBuffer attempts status io).2 []
      (if (readSector σ sectorBuffer attempts status io).1 then [sectorTransfer sectorBuffer]
        else []) := by
  induction attempts generalizing status io with
  | zero => exact .refl io
  | succ attempts ih =>
    obtain ⟨ext, hlog, hreads, hlast⟩ := pollSector_reads σ 1000000 status io
    rw [readSector]
    split
    · next hgo =>
      obtain ⟨pre, hext, hdata⟩ := hlast hgo.1 hgo.2
      have hpre : OnlyReads pre := fun a ha => hreads a (hext ▸ List.mem_append_left _ ha)
      have hpair := transfersWhenReady_pair hdata ataRegData sectorBuffer 256
      refine ⟨pre ++ [.inb ataRegAltstatus (pollSector σ 1000000 status io).status,
        .insw ataRegData sectorBuffer 256], ?_, hpre.transfersWhenReady.append hpair, ?_, ?_⟩
      · rw [DriveIo.insw, hlog, hext]
        simp only [List.append_assoc, List.cons_append, List.nil_append]
      · rw [writesOf, List.filterMap_append]
        exact congrArg (· ++ []) hpre.writesOf
      · rw [transfersOf, List.filterMap_append]
        exact congrArg (· ++ [sectorTransfer sectorBuffer]) hpre.transfersOf
    · have hrest := ih (pollSector σ 1000000 status io).status (pollSector σ 1000000 status io).io
      exact (DriveIo.Does.reads hlog hreads).trans hrest

/-- The sectors from the `i`-th on are transferred one after the other, all of them when the call
returns. -/
theorem readSectors_does (σ : Statuses) (buffer left i : Nat) (io : DriveIo) :
    ∃ k, k ≤ left ∧ ((readSectors σ buffer left i io).1 = .returned ↔ k = left) ∧
      DriveIo.Does io (readSectors σ buffer left i io).2 []
        ((List.range' i k).map fun j => sectorTransfer (wrap (buffer + 512 * j))) := by
  induction left generalizing i io with
  | zero => exact ⟨0, Nat.le_refl 0, iff_of_true rfl rfl, .refl io⟩
  | succ left ih =>
    have haddr : wrap (buffer + wrap (i * 512)) = wrap (buffer + 512 * i) := by
      rw [wrap_add_wrap, Nat.mul_comm]
    have hsector := readSector_does σ (wrap (buffer + wrap (i * 512))) 3 0 io
    rw [readSectors]
    split
    · next hdone =>
      rw [if_pos hdone, haddr] at hsector
      obtain ⟨k, hk, hret, hrest⟩ :=
        ih (i + 1) (readSector σ (wrap (buffer + wrap (i * 512))) 3 0 io).2
      refine ⟨k + 1, by omega, ?_, ?_⟩
      · rw [hret]
        omega
      · rw [haddr] at hrest ⊢
        exact hsector.trans hrest
    · next hfail =>
      rw [if_neg hfail] at hsector
      refine ⟨0, Nat.zero_le _, iff_of_false ?_ (by omega), hsector⟩
      intro hret
      cases hret

theorem readSectors_ne_waiting (σ : Statuses) (buffer left i : Nat) (io : DriveIo) :
    (readSectors σ buffer left i io).1 ≠ .waiting := by
  induction left generalizing i io with
  | zero => nofun
  | succ left ih =>
    rw [readSectors]
    split
    · exact ih (i + 1) _
    · nofun

/-- What `disk_read_ex` writes into the registers of the drive. -/
def commandWrites (drive lba sectorCount : Nat) : List (Nat × UInt8) :=
  [(ataRegDevice, UInt8.ofNat ((if drive = 0 then 0xE0 else 0xF0) ||| ((lba >>> 24) &&& 0x0F))),
    (ataRegSeccount, UInt8.ofNat sectorCount), (ataRegLbaLow, UInt8.ofNat lba),
    (ataRegLbaMid, UInt8.ofNat (lba >>> 8)), (ataRegLbaHigh, UInt8.ofNat (lba >>> 16)),
    (ataRegCommand, 0x20)]

theorem sendReadCommand_does (drive lba sectorCount : Nat) (io : DriveIo) :
    DriveIo.Does io (sendReadCommand drive lba sectorCount io)
      (commandWrites drive lba sectorCount) [] :=
  (io.does_outb _ _).trans <| (DriveIo.does_outb _ _ _).trans <|
    (DriveIo.does_outb _ _ _).trans <| (DriveIo.does_outb _ _ _).trans <|
      (DriveIo.does_outb _ _ _).trans (DriveIo.does_outb _ _ _)

/-- A call that is still in its first loop has only read the status; any other has sent the command
and transferred some sectors in order, all of them when it has returned. -/
theorem diskReadEx_does (σ : Statuses) (fuel drive lba buffer sectorCount : Nat) (io : DriveIo) :
    ((diskReadEx σ fuel drive lba buffer sectorCount io).1 = .waiting ∧
      DriveIo.Does io (diskReadEx σ fuel drive lba buffer sectorCount io).2 [] []) ∨
    (diskReadEx σ fuel drive lba buffer sectorCount io).1 ≠ .waiting ∧
      ∃ k, k ≤ sectorCount ∧
        ((diskReadEx σ fuel drive lba buffer sectorCount io).1 = .returned ↔ k = sectorCount) ∧
        DriveIo.Does io (diskReadEx σ fuel drive lba buffer sectorCount io).2
          (commandWrites drive lba sectorCount)
          ((List.range k).map fun i => sectorTransfer (wrap (buffer + 512 * i))) := by
  obtain ⟨ext, hlog, hreads⟩ := waitIdle_reads σ fuel io
  have hwait : DriveIo.Does io (waitIdle σ fuel io).2 [] [] := .reads hlog hreads
  rw [diskReadEx]
  split
  · obtain ⟨k, hk, hret, hsectors⟩ := readSectors_does σ buffer sectorCount 0
      (sendReadCommand drive lba sectorCount (waitIdle σ fuel io).2)
    have hdone := (hwait.trans (sendReadCommand_does drive lba sectorCount _)).trans hsectors
    rw [← List.range_eq_range', List.nil_append, List.append_nil] at hdone
    exact .inr ⟨readSectors_ne_waiting _ _ _ _ _, k, hk, hret, hdone⟩
  · exact .inl ⟨rfl, hwait⟩

/-- `disk_read_ex` takes data only from a drive that gives it, and when it returns it has moved each
sector once and in order, the `i`-th to `buffer + 512 * i`. -/
theorem disk_read_takes_sectors (σ : Statuses) (fuel drive lba buffer sectorCount : Nat) :
    TransfersWhenReady (diskReadEx σ fuel drive lba buffer sectorCount .start).2.log ∧
    (∃ k, k ≤ sectorCount ∧
      transfersOf (diskReadEx σ fuel drive lba buffer sectorCount .start).2.log =
        (List.range k).map fun i => ⟨ataRegData, wrap (buffer + 512 * i), 256⟩) ∧
    ((diskReadEx σ fuel drive lba buffer sectorCount .start).1 = .returned →
      transfersOf (diskReadEx σ fuel drive lba buffer sectorCount .start).2.log =
        (List.range sectorCount).map fun i => ⟨ataRegData, wrap (buffer + 512 * i), 256⟩) := by
  rcases diskReadEx_does σ fuel drive lba buffer sectorCount .start with
    ⟨hwait, hdoes⟩ | ⟨-, k, hk, hret, hdoes⟩
  · obtain ⟨hready, -, hmoved⟩ := hdoes.from_start
    refine ⟨hready, ⟨0, Nat.zero_le _, hmoved⟩, fun h => ?_⟩
    rw [hwait] at h
    cases h
  · obtain ⟨hready, -, hmoved⟩ := hdoes.from_start
    refine ⟨hready, ⟨k, hk, hmoved⟩, fun h => ?_⟩
    rw [hmoved, hret.1 h]
    rfl

/-- A drive that is not busy at some poll lets the call go on to its end, one way or the other. -/
theorem diskReadEx_ends (σ : Statuses) (h : isSet (σ k) ataSrBsy = false) (hk : k < fuel)
    (drive lba buffer sectorCount : Nat) :
    (diskReadEx σ fuel drive lba buffer sectorCount .start).1 ≠ .waiting := by
  have hidle : (waitIdle σ fuel .start).1 = true := by
    apply waitIdle_ends (k := k) _ hk
    rw [DriveIo.start, Nat.zero_add]
    exact h
  rw [diskReadEx, if_pos hidle]
  exact readSectors_ne_waiting _ _ _ _ _

end KernelCustom
