import KernelCustom.Word32
import Mathlib.Data.List.Basic

namespace KernelCustom
set_option autoImplicit true

/-! The ports and bits of `ata.h` and `disk.c`. -/

def ataPrimaryCtrl : Nat := 0x3F6
def ataRegData : Nat := 0x1F0
def ataRegSeccount : Nat := 0x1F2
def ataRegLbaLow : Nat := 0x1F3
def ataRegLbaMid : Nat := 0x1F4
def ataRegLbaHigh : Nat := 0x1F5
def ataRegDevice : Nat := 0x1F6
def ataRegCommand : Nat := 0x1F7
def ataRegStatus : Nat := 0x1F7
def ataRegAltstatus : Nat := 0x3F6
def ataSrBsy : UInt8 := 0x80
def ataSrDrq : UInt8 := 0x08
def ataSrErr : UInt8 := 0x01
def ataSrDrdy : UInt8 := 0x40
def ataMaster : UInt8 := 0xE0

/-- A status bit, as a C condition. -/
def isSet (status bit : UInt8) : Bool := status &&& bit ≠ 0

/-- What the driver does at a port. `insw` moves `count` words to an address. -/
inductive PortAccess where
  | outb (port : Nat) (val : UInt8)
  | inb (port : Nat) (val : UInt8)
  | insw (port addr count : Nat)
  deriving DecidableEq

/-- The values that the drive gives for the status, one for each read. -/
abbrev Statuses := Nat → UInt8

/-- The accesses so far, with the number of status reads among them. -/
structure DriveIo where
  reads : Nat
  log : List PortAccess

def DriveIo.start : DriveIo := ⟨0, []⟩

def DriveIo.outb (io : DriveIo) (port : Nat) (val : UInt8) : DriveIo :=
  { io with log := io.log ++ [.outb port val] }

/-- `inb` of a status port. -/
def DriveIo.inb (io : DriveIo) (σ : Statuses) (port : Nat) : UInt8 × DriveIo :=
  (σ io.reads, ⟨io.reads + 1, io.log ++ [.inb port (σ io.reads)]⟩)

def DriveIo.insw (io : DriveIo) (port addr count : Nat) : DriveIo :=
  { io with log := io.log ++ [.insw port addr count] }

@[simp] theorem DriveIo.inb_reads (io : DriveIo) (σ : Statuses) (port : Nat) :
    (io.inb σ port).2.reads = io.reads + 1 := rfl

@[simp] theorem DriveIo.inb_value (io : DriveIo) (σ : Statuses) (port : Nat) :
    (io.inb σ port).1 = σ io.reads := rfl

/-- A block of words that has been moved to memory. -/
structure Transfer where
  port : Nat
  addr : Nat
  words : Nat
  deriving DecidableEq

/-- The transfers of a log, in order. -/
def transfersOf (log : List PortAccess) : List Transfer :=
  log.filterMap fun
    | .insw port addr count => some ⟨port, addr, count⟩
    | _ => none

/-- The register writes of a log, in order. -/
def writesOf (log : List PortAccess) : List (Nat × UInt8) :=
  log.filterMap fun
    | .outb port val => some (port, val)
    | _ => none

/-- A status with which the drive gives the data of a sector. -/
def givesData (status : UInt8) : Prop :=
  isSet status ataSrBsy = false ∧ isSet status ataSrDrq = true ∧ isSet status ataSrErr = false

/-- Right in front of each transfer stands a status read that says that the drive gives data. -/
def TransfersWhenReady (log : List PortAccess) : Prop :=
  ∀ pre port addr count post, log = pre ++ .insw port addr count :: post →
    ∃ pre' status, pre = pre' ++ [.inb ataRegAltstatus status] ∧ givesData status

theorem TransfersWhenReady.append (h : TransfersWhenReady l) (h' : TransfersWhenReady l') :
    TransfersWhenReady (l ++ l') := by
  intro pre port addr count post heq
  rcases List.append_eq_append_iff.1 heq with ⟨mid, hpre, hl'⟩ | ⟨mid, hl, hpost⟩
  · obtain ⟨pre', status, hmid, hdata⟩ := h' mid port addr count post hl'
    exact ⟨l ++ pre', status, by rw [hpre, hmid, List.append_assoc], hdata⟩
  · cases mid with
    | nil =>
      obtain ⟨pre', status, hmid, -⟩ := h' [] port addr count post hpost.symm
      exact (List.append_ne_nil_of_right_ne_nil _ (List.cons_ne_nil _ _) hmid.symm).elim
    | cons a mid =>
      rw [List.cons_append, List.cons.injEq] at hpost
      rw [← hpost.1] at hl
      exact h pre port addr count mid hl

/-- A log of status reads. -/
def OnlyReads (log : List PortAccess) : Prop := ∀ a ∈ log, ∃ port val, a = .inb port val

theorem OnlyReads.transfersWhenReady (h : OnlyReads l) : TransfersWhenReady l := by
  intro pre port addr count post heq
  obtain ⟨_, _, hread⟩ :=
    h (.insw port addr count) (heq ▸ List.mem_append_right _ List.mem_cons_self)
  cases hread

theorem OnlyReads.transfersOf (h : OnlyReads l) : transfersOf l = [] := by
  apply List.filterMap_eq_nil_iff.2
  intro a ha
  obtain ⟨_, _, rfl⟩ := h a ha
  rfl

theorem OnlyReads.writesOf (h : OnlyReads l) : writesOf l = [] := by
  apply List.filterMap_eq_nil_iff.2
  intro a ha
  obtain ⟨_, _, rfl⟩ := h a ha
  rfl

/-- A transfer behind a status read that says that the drive gives data. -/
theorem transfersWhenReady_pair (h : givesData status) (port addr count : Nat) :
    TransfersWhenReady [.inb ataRegAltstatus status, .insw port addr count] := by
  intro pre port' addr' count' post heq
  cases pre with
  | nil =>
    rw [List.nil_append, List.cons.injEq] at heq
    cases heq.1
  | cons a pre =>
    rw [List.cons_append, List.cons.injEq] at heq
    obtain ⟨rfl, hrest⟩ := heq
    cases pre with
    | nil => exact ⟨[], status, rfl, h⟩
    | cons b pre =>
      have hlength := congrArg List.length hrest
      simp only [List.length_append, List.length_cons, List.length_nil] at hlength
      omega

/-- What part of a run does at the ports: it writes some registers, makes some transfers, and makes
them when the drive is ready. -/
structure DriveIo.Does (io io' : DriveIo) (writes : List (Nat × UInt8)) (moved : List Transfer) :
    Prop where
  extends_log : ∃ ext, io'.log = io.log ++ ext ∧ TransfersWhenReady ext ∧ writesOf ext = writes ∧
    transfersOf ext = moved

theorem DriveIo.Does.trans (h : DriveIo.Does io io' ws ts) (h' : DriveIo.Does io' io'' ws' ts') :
    DriveIo.Does io io'' (ws ++ ws') (ts ++ ts') := by
  obtain ⟨ext, hlog, hready, rfl, rfl⟩ := h.extends_log
  obtain ⟨ext', hlog', hready', rfl, rfl⟩ := h'.extends_log
  refine ⟨ext ++ ext', ?_, hready.append hready', ?_, ?_⟩
  · rw [hlog', hlog, List.append_assoc]
  · exact List.filterMap_append
  · exact List.filterMap_append

theorem DriveIo.Does.reads (hlog : io'.log = io.log ++ ext) (h : OnlyReads ext) :
    DriveIo.Does io io' [] [] :=
  ⟨ext, hlog, h.transfersWhenReady, h.writesOf, h.transfersOf⟩

theorem DriveIo.Does.refl (io : DriveIo) : DriveIo.Does io io [] [] :=
  .reads (List.append_nil _).symm (List.forall_mem_nil _)

theorem DriveIo.does_outb (io : DriveIo) (port : Nat) (val : UInt8) :
    DriveIo.Does io (io.outb port val) [(port, val)] [] := by
  refine ⟨[.outb port val], rfl, ?_, rfl, rfl⟩
  intro pre port' addr count post heq
  have hmem : PortAccess.insw port' addr count ∈ [PortAccess.outb port val] := by
    rw [heq]
    exact List.mem_append_right _ List.mem_cons_self
  cases List.mem_singleton.1 hmem

theorem DriveIo.Does.from_start (h : DriveIo.Does .start io ws ts) :
    TransfersWhenReady io.log ∧ writesOf io.log = ws ∧ transfersOf io.log = ts := by
  obtain ⟨ext, hlog, hready, hwrites, hmoved⟩ := h.extends_log
  have hext : io.log = ext := hlog.trans (List.nil_append ext)
  rw [hext]
  exact ⟨hready, hwrites, hmoved⟩

end KernelCustom
