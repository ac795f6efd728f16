import KernelCustom.BlockAddress
import KernelCustom.Traces

namespace KernelCustom
open Traces
set_option autoImplicit true

/-! The drive at the other end of the ports: what ATA says of reads with 28-bit addresses. -/

/-- What a drive is doing. One that has been used against the protocol is astray, and may do
anything until it is reset. -/
inductive DrivePhase where
  | resetting
  | settling (polls : Nat)
  | idle
  | preparing (sector left polls : Nat)
  | ready (sector left : Nat)
  | failed
  | astray
  deriving DecidableEq

/-- What drives differ in: their content, after how many polls they may still be busy with a reset
or a sector, which statuses they show while they are busy (no other bit counts then), and whether a
sector may fail. -/
structure DriveTraits where
  disk : Disk
  busyReset : Nat → Prop
  busySector : Nat → Prop
  busyStatus : UInt8 → Prop
  busy : ∀ v, busyStatus v → isSet v ataSrBsy = true
  mayFail : Prop

/-- A drive, with the memory that its data goes to. -/
structure AttachedDrive where
  regs : Nat → UInt8
  phase : DrivePhase
  mem : ByteStore.Mem

/-- The status of a drive that waits for a command. -/
structure IdleStatus (v : UInt8) : Prop where
  bsy : isSet v ataSrBsy = false
  drq : isSet v ataSrDrq = false
  err : isSet v ataSrErr = false
  drdy : isSet v ataSrDrdy = true

/-- The status of a drive that has given up. -/
structure ErrorStatus (v : UInt8) : Prop where
  bsy : isSet v ataSrBsy = false
  drq : isSet v ataSrDrq = false
  err : isSet v ataSrErr = true

/-- What a poll of the status may show, and what becomes of the drive. -/
inductive StatusAnswer (τ : DriveTraits) : DrivePhase → UInt8 → DrivePhase → Prop where
  | resetting (hv : τ.busyStatus v) : StatusAnswer τ .resetting v .resetting
  | settling (hk : τ.busyReset polls) (hv : τ.busyStatus v) :
      StatusAnswer τ (.settling polls) v (.settling (polls + 1))
  | settled (hv : IdleStatus v) : StatusAnswer τ (.settling polls) v .idle
  | idle (hv : IdleStatus v) : StatusAnswer τ .idle v .idle
  | preparing (hk : τ.busySector polls) (hv : τ.busyStatus v) :
      StatusAnswer τ (.preparing sector left polls) v (.preparing sector left (polls + 1))
  | prepared (hv : givesData v) :
      StatusAnswer τ (.preparing sector left polls) v (.ready sector left)
  | fault (hf : τ.mayFail) (hv : ErrorStatus v) :
      StatusAnswer τ (.preparing sector left polls) v .failed
  | ready (hv : givesData v) : StatusAnswer τ (.ready sector left) v (.ready sector left)
  | failed (hv : ErrorStatus v) : StatusAnswer τ .failed v .failed

/-- The registers that a command takes its sectors from. -/
def taskFile : List Nat :=
  [ataRegDevice, ataRegSeccount, ataRegLbaLow, ataRegLbaMid, ataRegLbaHigh]

/-- The device register selects device 0, with an LBA. -/
def AttachedDrive.Addressed (s : AttachedDrive) : Prop := s.regs ataRegDevice &&& 0x50 = 0x40

/-- The first sector of a command. -/
def AttachedDrive.lba (s : AttachedDrive) : Nat :=
  16777216 * (s.regs ataRegDevice &&& 0x0F).toNat + 65536 * (s.regs ataRegLbaHigh).toNat +
    256 * (s.regs ataRegLbaMid).toNat + (s.regs ataRegLbaLow).toNat

/-- The number of sectors of a command; 0 stands for 256. -/
def AttachedDrive.count (s : AttachedDrive) : Nat :=
  if s.regs ataRegSeccount = 0 then 256 else (s.regs ataRegSeccount).toNat

def DrivePhase.TakesCommands (p : DrivePhase) : Prop := p = .idle ∨ p = .failed

/-- The accesses that the protocol allows. -/
def AttachedDrive.Allows (s : AttachedDrive) : PortAccess → Prop
  | .outb port val => port = ataPrimaryCtrl ∨ s.phase.TakesCommands ∧
      (port ∈ taskFile ∨ port = ataRegCommand ∧ val = 0x20 ∧ s.Addressed)
  | .inb port _ => port = ataRegStatus ∨ port = ataRegAltstatus
  | .insw port _ count => port = ataRegData ∧ count = 256 ∧
      ∃ sector left, s.phase = .ready sector left

/-- `SRST` in the device control register. -/
def isReset : PortAccess → Prop
  | .outb port val => port = ataPrimaryCtrl ∧ isSet val 0x04
  | _ => False

/-- What an access does to the drive and to the memory. -/
inductive AtaStep (τ : DriveTraits) : AttachedDrive → PortAccess → AttachedDrive → Prop where
  | reset (hv : isSet val 0x04) :
      AtaStep τ s (.outb ataPrimaryCtrl val) { s with phase := .resetting }
  | release (hv : ¬ isSet val 0x04) (hs : s.phase = .resetting) :
      AtaStep τ s (.outb ataPrimaryCtrl val) { s with phase := .settling 0 }
  | control (hv : ¬ isSet val 0x04) (hs : s.phase ≠ .resetting ∧ s.phase ≠ .astray) :
      AtaStep τ s (.outb ataPrimaryCtrl val) s
  | register (hs : s.phase.TakesCommands) (hport : port ∈ taskFile) :
      AtaStep τ s (.outb port val) { s with regs := Function.update s.regs port val }
  | command (hs : s.phase.TakesCommands) (ha : s.Addressed) :
      AtaStep τ s (.outb ataRegCommand 0x20) { s with phase := .preparing s.lba s.count 0 }
  | poll (hport : port = ataRegStatus ∨ port = ataRegAltstatus) (h : StatusAnswer τ s.phase v p) :
      AtaStep τ s (.inb port v) { s with phase := p }
  | transfer (hs : s.phase = .ready sector left) :
      AtaStep τ s (.insw ataRegData addr 256) { s with
        phase := if left = 1 then .idle else .preparing (sector + 1) (left - 1) 0
        mem := receive τ.disk sector [sectorTransfer addr] s.mem }
  | stray (ha : ¬ s.Allows a) (ht : t.phase = .astray) : AtaStep τ s a t
  | lost (hs : s.phase = .astray) (ha : ¬ isReset a) (ht : t.phase = .astray) : AtaStep τ s a t

variable {τ : DriveTraits} {s t : AttachedDrive}

/-! What the accesses of a driver do when the drive is not astray. -/

theorem AtaStep.poll_inv (h : AtaStep τ s (.inb port v) t)
    (hport : port = ataRegStatus ∨ port = ataRegAltstatus) (hs : s.phase ≠ .astray) :
    t.regs = s.regs ∧ t.mem = s.mem ∧ StatusAnswer τ s.phase v t.phase := by
  cases h with
  | poll _ h => exact ⟨rfl, rfl, h⟩
  | stray ha _ => exact (ha hport).elim
  | lost hlost _ _ => exact (hs hlost).elim

theorem taskFile_ne (h : port ∈ taskFile) : port ≠ ataPrimaryCtrl ∧ port ≠ ataRegCommand := by
  constructor
  · rintro rfl
    exact absurd h (by decide)
  · rintro rfl
    exact absurd h (by decide)

theorem TakesCommands.not_astray {p : DrivePhase} (h : p.TakesCommands) : p ≠ .astray := by
  rcases h with rfl | rfl
  · exact DrivePhase.noConfusion
  · exact DrivePhase.noConfusion

theorem AtaStep.register_inv (h : AtaStep τ s (.outb port val) t) (hport : port ∈ taskFile)
    (hs : s.phase.TakesCommands) : t = { s with regs := Function.update s.regs port val } := by
  obtain ⟨hctrl, hcommand⟩ := taskFile_ne hport
  cases h with
  | reset => exact (hctrl rfl).elim
  | release => exact (hctrl rfl).elim
  | control => exact (hctrl rfl).elim
  | register => rfl
  | command => exact (hcommand rfl).elim
  | stray ha _ => exact (ha (.inr ⟨hs, .inl hport⟩)).elim
  | lost hlost _ _ => exact (TakesCommands.not_astray hs hlost).elim

theorem AtaStep.command_inv (h : AtaStep τ s (.outb ataRegCommand 0x20) t)
    (hs : s.phase.TakesCommands) (ha : s.Addressed) :
    t = { s with phase := .preparing s.lba s.count 0 } := by
  have hno : ataRegCommand ∉ taskFile := by decide
  generalize hport : ataRegCommand = port at h
  cases h with
  | reset => exact absurd hport (by decide)
  | release => exact absurd hport (by decide)
  | control => exact absurd hport (by decide)
  | register _ hmem => exact (hno (hport ▸ hmem)).elim
  | command => rfl
  | stray hbad _ => exact (hbad (.inr ⟨hs, .inr ⟨hport.symm, rfl, ha⟩⟩)).elim
  | lost hlost _ _ => exact (TakesCommands.not_astray hs hlost).elim

theorem AtaStep.transfer_inv (h : AtaStep τ s (.insw ataRegData addr 256) t)
    (hs : s.phase = .ready sector left) : t = { s with
      phase := if left = 1 then .idle else .preparing (sector + 1) (left - 1) 0
      mem := receive τ.disk sector [sectorTransfer addr] s.mem } := by
  cases h with
  | transfer hs' =>
    rw [hs] at hs'
    cases hs'
    rfl
  | stray ha _ => exact (ha ⟨rfl, rfl, _, _, hs⟩).elim
  | lost hlost _ _ =>
    rw [hs] at hlost
    cases hlost

/-- A reset takes hold in any state. -/
theorem AtaStep.reset_inv (h : AtaStep τ s (.outb ataPrimaryCtrl val) t) (hv : isSet val 0x04) :
    t = { s with phase := .resetting } := by
  generalize hport : ataPrimaryCtrl = port at h
  cases h with
  | reset => rfl
  | release hno _ => exact (hno hv).elim
  | control hno _ => exact (hno hv).elim
  | register _ hmem => exact ((taskFile_ne hmem).1 hport.symm).elim
  | command => exact absurd hport (by decide)
  | stray ha _ => exact (ha (.inl hport.symm)).elim
  | lost _ ha _ => exact (ha ⟨hport.symm, hv⟩).elim

theorem AtaStep.release_inv (h : AtaStep τ s (.outb ataPrimaryCtrl val) t) (hv : ¬ isSet val 0x04)
    (hs : s.phase = .resetting) : t = { s with phase := .settling 0 } := by
  generalize hport : ataPrimaryCtrl = port at h
  cases h with
  | reset hyes => exact (hv hyes).elim
  | release => rfl
  | control _ hno => exact (hno.1 hs).elim
  | register _ hmem => exact ((taskFile_ne hmem).1 hport.symm).elim
  | command => exact absurd hport (by decide)
  | stray ha _ => exact (ha (.inl hport.symm)).elim
  | lost hlost _ _ =>
    rw [hs] at hlost
    cases hlost

end KernelCustom
