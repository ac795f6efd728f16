import KernelCustom.UserIsolation

namespace KernelCustom
open X86 Word32 ByteStore
set_option autoImplicit true

/-- What loads the segments of the kernel. -/
def kernelSegments : List Instr :=
  [.movAx 0x10, .movSegAx .ds, .movSegAx .es, .movSegAx .fs, .movSegAx .gs, .movSegAx .ss]

/-- `user_exit_return_stub`. -/
def userExitReturnStub (cpu : Cpu) (I : KernelImage L) (shellLoop : UInt32) (x : State) : State :=
  let x := run cpu kernelSegments x
  let x := x.setReg .esp (load x.mem I.gUserKernelEsp)
  { x with eip := shellLoop, eflags := x.eflags ||| 0x200 }

/-- The assembly at the end of `page_fault_handler` for a fault of a program. The compiler chooses
the registers of its two operands. -/
def userFaultReturn (cpu : Cpu) (I : KernelImage L) (kernelEsp target : Reg) (runShell : UInt32)
    (x : State) : State :=
  let x := (x.setReg kernelEsp (load x.mem I.gUserKernelEsp)).setReg target runShell
  let x := run cpu kernelSegments x
  let x := x.setReg .esp (x.reg kernelEsp)
  { x with eip := x.reg target, eflags := x.eflags ||| 0x200 }

/-! Back in the shell. -/

/-- The kernel on the stack that it has left for a program. -/
structure InShell (esp eip : UInt32) (x y : State) : Prop where
  esp : y.reg .esp = esp
  eip : y.eip = eip
  interruptsOn : y.interruptsOn = true
  cs : y.seg .cs = x.seg .cs
  segments : ∀ r, r ≠ .cs → y.seg r = 0x10
  mem : y.mem = x.mem

theorem withLow16_eq_self_iff (v : UInt32) (w : UInt16) : withLow16 v w = v ↔ v.toUInt16 = w := by
  constructor
  · intro h
    rw [← h, toUInt16_withLow16]
  · rintro rfl
    apply UInt32.toNat_inj.1
    have hv := v.toNat_lt
    rw [withLow16, UInt32.toNat_toUInt16, UInt32.toNat_ofNat']
    omega

theorem testBit_interrupts (f : UInt32) : (f ||| 0x200).toNat.testBit 9 = true := by
  rw [UInt32.toNat_or, Nat.testBit_or, show (0x200 : UInt32).toNat.testBit 9 = true from rfl,
    Bool.or_true]

theorem run_kernelSegments (cpu : Cpu) (x : State) :
    (run cpu kernelSegments x).reg = Function.update x.reg .eax (withLow16 (x.reg .eax) 0x10) ∧
      (run cpu kernelSegments x).seg .cs = x.seg .cs ∧
      (∀ r, r ≠ .cs → (run cpu kernelSegments x).seg r = 0x10) ∧
      (run cpu kernelSegments x).mem = x.mem := by
  have hax : ((x.setReg .eax (withLow16 (x.reg .eax) 0x10)).reg .eax).toUInt16 = 0x10 := by
    simp only [State.setReg, Function.update_self, toUInt16_withLow16]
  refine ⟨rfl, rfl, fun r hr => ?_, rfl⟩
  cases r with
  | cs => exact absurd rfl hr
  | ss | ds | es | fs | gs => exact hax

/-- The first instruction overwrites the lower half of `eax`. -/
theorem kernelSegments_keeps_iff (cpu : Cpu) (x : State) (r : Reg) :
    (run cpu kernelSegments x).reg r = x.reg r ↔ (r = .eax → (x.reg r).toUInt16 = 0x10) := by
  rw [(run_kernelSegments cpu x).1, Function.update_apply]
  split
  · next hr =>
    subst hr
    rw [withLow16_eq_self_iff]
    exact ⟨fun h _ => h, fun h => h rfl⟩
  · next hr => exact iff_of_true rfl fun h => absurd h hr

theorem userExitReturnStub_inShell (cpu : Cpu) (I : KernelImage L) (shellLoop : UInt32)
    (x : State) :
    InShell (load x.mem I.gUserKernelEsp) shellLoop x (userExitReturnStub cpu I shellLoop x) := by
  obtain ⟨-, hcs, hseg, hmem⟩ := run_kernelSegments cpu x
  refine ⟨?_, rfl, testBit_interrupts _, hcs, hseg, hmem⟩
  rw [userExitReturnStub]
  simp only [State.setReg, Function.update_self, hmem]

theorem userFaultReturn_inShell_iff (cpu : Cpu) (I : KernelImage L) (runShell : UInt32) (x : State)
    (hne : kernelEsp ≠ target) (htarget : target ≠ .esp) :
    InShell (load x.mem I.gUserKernelEsp) runShell x
        (userFaultReturn cpu I kernelEsp target runShell x) ↔
      (kernelEsp = .eax → (load x.mem I.gUserKernelEsp).toUInt16 = 0x10) ∧
        (target = .eax → runShell.toUInt16 = 0x10) := by
  let z := (x.setReg kernelEsp (load x.mem I.gUserKernelEsp)).setReg target runShell
  obtain ⟨-, hcs, hseg, hmem⟩ := run_kernelSegments cpu z
  have hz₁ : z.reg kernelEsp = load x.mem I.gUserKernelEsp := by
    simp only [z, State.setReg, Function.update_of_ne hne, Function.update_self]
  have hz₂ : z.reg target = runShell := by
    simp only [z, State.setReg, Function.update_self]
  have hesp : (userFaultReturn cpu I kernelEsp target runShell x).reg .esp =
      (run cpu kernelSegments z).reg kernelEsp := by
    simp only [userFaultReturn, State.setReg, Function.update_self, z]
  have heip : (userFaultReturn cpu I kernelEsp target runShell x).eip =
      (run cpu kernelSegments z).reg target := Function.update_of_ne htarget ..
  have hkeeps₁ := kernelSegments_keeps_iff cpu z kernelEsp
  have hkeeps₂ := kernelSegments_keeps_iff cpu z target
  rw [← hesp, hz₁] at hkeeps₁
  rw [← heip, hz₂] at hkeeps₂
  rw [← hkeeps₁, ← hkeeps₂]
  constructor
  · intro h
    exact ⟨h.esp, h.eip⟩
  · rintro ⟨h₁, h₂⟩
    exact ⟨h₁, h₂, testBit_interrupts _, hcs, hseg, hmem⟩

/-! Program after program. -/

section Starts

variable {L : Layout} {I : KernelImage L} {s : ProtectionState} {room : UInt32} {cpu : Cpu}

/-- The kernel at a start of a program that its loader has made ready. -/
structure Starting (I : KernelImage L) (s : ProtectionState) (room : UInt32) (x : State) :
    Prop where
  cpl : x.cpl = 0
  stack : StackRoom I room x
  laid : ∃ esp0, (booted I s esp0).Laid I x.mem
  pages : ∃ ms, LoaderRun L (Confining L) ms ∧
    ∀ a, TableByte L a → physical x.mem a = ms.mem a

/-- The ways from a program back to the shell, where the compiler keeps operands out of `eax`. -/
inductive ShellReturn (cpu : Cpu) (I : KernelImage L) (z : State) : State → Prop where
  | exit (shellLoop : UInt32) : ShellReturn cpu I z (userExitReturnStub cpu I shellLoop z)
  | fault (kernelEsp target : Reg) (runShell : UInt32) (hne : kernelEsp ≠ target)
      (hkernelEsp : kernelEsp ≠ .eax) (htarget : target ∉ [.eax, .esp]) :
      ShellReturn cpu I z (userFaultReturn cpu I kernelEsp target runShell z)

theorem ShellReturn.inShell (h : ShellReturn cpu I z w) :
    ∃ eip, InShell (load z.mem I.gUserKernelEsp) eip z w := by
  cases h with
  | exit shellLoop => exact ⟨shellLoop, userExitReturnStub_inShell cpu I shellLoop z⟩
  | fault kernelEsp target runShell hne hkernelEsp htarget =>
    simp only [List.mem_cons, List.not_mem_nil, or_false, not_or] at htarget
    exact ⟨runShell, (userFaultReturn_inShell_iff cpu I runShell z hne htarget.2).2
      ⟨fun h => absurd h hkernelEsp, fun h => absurd h htarget.1⟩⟩

/-- The times that a kernel comes to start a program, each with the number of programs that have
run before it. -/
inductive ProgramStarts (cpu : Cpu) (I : KernelImage L) (s : ProtectionState) (room : UInt32)
    (first : State) : Nat → State → Prop where
  | first : ProgramStarts cpu I s room first 0 first
  | next {n : Nat} {x y z w x' : State} (h : ProgramStarts cpu I s room first n x)
      (hstart : Starting I s room x) (returnAddress entryPoint : UInt32)
      (hrun : ProgramRun cpu I s (x.reg .esp)
        (runUserProgramAt cpu I room returnAddress entryPoint x) y)
      -- the kernel on its way from the program to the shell
      (hkept : load z.mem I.gUserKernelEsp = load y.mem I.gUserKernelEsp)
      (hback : ShellReturn cpu I z w)
      -- `shell_loop` does not return, and what it calls has its frames below
      (hbelow : (x'.reg .esp).toNat ≤ (w.reg .esp).toNat) :
      ProgramStarts cpu I s room first (n + 1) x'

/-- No program changes the stack pointer that `asm_switch_to_user` has saved. -/
theorem Starting.stored (h : Starting I s room x) (returnAddress entryPoint : UInt32)
    (hrun : ProgramRun cpu I s (x.reg .esp)
      (runUserProgramAt cpu I room returnAddress entryPoint x) y) :
    load y.mem I.gUserKernelEsp = (atSwitch I room returnAddress entryPoint x).reg .esp := by
  obtain ⟨esp0, hlaid⟩ := h.laid
  obtain ⟨ms, hload, hpages⟩ := h.pages
  obtain ⟨M, hM, hconf⟩ := hload.guarded.pages
  obtain ⟨-, hisolated⟩ := runUserProgramAt_isolated cpu h.cpl h.stack hlaid
    ⟨M, hM.of_same hpages, hconf⟩ returnAddress entryPoint
  exact (hrun.isolated hisolated).stored

/-- A fault of a program, at any time of its run, leads to the shell on the stack that the kernel
has left, exactly if the compiler keeps the operands of the assembly out of `eax`, whose lower half
its first instruction overwrites, or the operand in `eax` has that lower half already. -/
theorem fault_returns_to_shell_iff (hstart : Starting I s room x)
    (returnAddress entryPoint runShell : UInt32)
    (hrun : ProgramRun cpu I s (x.reg .esp)
      (runUserProgramAt cpu I room returnAddress entryPoint x) y)
    (hkept : load z.mem I.gUserKernelEsp = load y.mem I.gUserKernelEsp)
    (hne : kernelEsp ≠ target) (htarget : target ≠ .esp) :
    let saved := (atSwitch I room returnAddress entryPoint x).reg .esp
    InShell saved runShell z (userFaultReturn cpu I kernelEsp target runShell z) ↔
      (kernelEsp = .eax → saved.toUInt16 = 0x10) ∧ (target = .eax → runShell.toUInt16 = 0x10) := by
  intro saved
  have hsaved : load z.mem I.gUserKernelEsp = saved :=
    hkept.trans (hstart.stored returnAddress entryPoint hrun)
  rw [← hsaved]
  exact userFaultReturn_inShell_iff cpu I runShell z hne htarget

/-- A program gives the kernel its stack back as it was at the call of `asm_switch_to_user`. -/
theorem Starting.returns (h : Starting I s room x) (returnAddress entryPoint : UInt32)
    (hrun : ProgramRun cpu I s (x.reg .esp)
      (runUserProgramAt cpu I room returnAddress entryPoint x) y)
    (hkept : load z.mem I.gUserKernelEsp = load y.mem I.gUserKernelEsp)
    (hback : ShellReturn cpu I z w) :
    (w.reg .esp).toNat + (12 + room.toNat) = (x.reg .esp).toNat := by
  obtain ⟨eip, hshell⟩ := hback.inShell
  have hesp : w.reg .esp = (atSwitch I room returnAddress entryPoint x).reg .esp := by
    rw [hshell.esp, hkept, h.stored returnAddress entryPoint hrun]
  have hpushed := (atSwitch_pushed h.stack returnAddress entryPoint).1
  rw [hesp]
  omega

theorem ProgramStarts.sinks {first : State} (h : ProgramStarts cpu I s room first n x) :
    (x.reg .esp).toNat + n * (12 + room.toNat) ≤ (first.reg .esp).toNat := by
  induction h with
  | first => omega
  | next _ hstart returnAddress entryPoint hrun hkept hback hbelow ih =>
    have hreturn := hstart.returns returnAddress entryPoint hrun hkept hback
    rw [Nat.succ_mul]
    omega

/-- The kernel does not get back the stack that it starts a program from: in every run, each
program leaves the shell at least 12 bytes and the frame of `run_user_program_at` lower, so that
only a bounded number of programs has room. -/
theorem kernel_stack_sinks {first : State}
    (hfirst : (first.reg .esp).toNat ≤ I.stackBottom.toNat + 16384)
    (h : ProgramStarts cpu I s room first n x) :
    (x.reg .esp).toNat + n * (12 + room.toNat) ≤ (first.reg .esp).toNat ∧
      (Starting I s room x → (n + 1) * (12 + room.toNat) + 20 ≤ 16384) := by
  have hsinks := h.sinks
  refine ⟨hsinks, fun hstart => ?_⟩
  obtain ⟨hlow, -⟩ := hstart.stack
  rw [Nat.succ_mul]
  omega

end Starts

theorem kernelCaller_starting (hload : LoaderRun Layout.sample (Confining Layout.sample) ms) :
    Starting KernelImage.sample .blank 0x40 (kernelCaller fun a => ms.mem a.toNat) where
  cpl := show (0x08 : UInt16).toNat % 4 = 0 by decide
  stack := kernelCaller_room _
  laid := ⟨0x90000, ProtectionState.place_laid ..⟩
  pages := ⟨ms, hload, fun _ ha => kernelCaller_pages ms ha⟩

/-- The kernel that a program has ended in at its first instruction. -/
def endedProgram (ms : MemoryState) : State :=
  { runUserProgramAt .zeroExtending KernelImage.sample 0x40 0x00101010 0x00800000
      (kernelCaller fun a => ms.mem a.toNat) with
    seg := fun r => if r = .cs then 0x08 else 0x10 }

theorem endedProgram_kept (ms : MemoryState) (a : UInt32) :
    load (endedProgram ms).mem a = load (runUserProgramAt .zeroExtending KernelImage.sample 0x40
      0x00101010 0x00800000 (kernelCaller fun a => ms.mem a.toNat)).mem a := by
  rw [endedProgram]

theorem fault_loses_kernel_stack : ∃ ms, LoaderRun Layout.sample (Confining Layout.sample) ms ∧
    ¬ InShell 0x00235EB4 0x00102000 (endedProgram ms) (userFaultReturn .zeroExtending
      KernelImage.sample .eax .edx 0x00102000 (endedProgram ms)) := by
  obtain ⟨ms, hms⟩ := Option.isSome_iff_exists.1 (memoryInit_default Layout.sample bootMemory rfl)
  have hload : LoaderRun Layout.sample (Confining Layout.sample) ms := .boot rfl rfl hms
  have hsaved : (atSwitch KernelImage.sample 0x40 0x00101010 0x00800000
      (kernelCaller fun a => ms.mem a.toNat)).reg .esp = 0x00235EB4 := by
    simp only [atSwitch, State.push, State.setReg, Function.update_self]
    rw [show (kernelCaller fun a => ms.mem a.toNat).reg .esp = 0x00235F00 from rfl]
    decide
  have hne : Reg.eax ≠ Reg.edx := by decide
  have htarget : Reg.edx ≠ Reg.esp := by decide
  refine ⟨ms, hload, fun hshell => ?_⟩
  have hiff := fault_returns_to_shell_iff (kernelCaller_starting hload) 0x00101010 0x00800000
    0x00102000 .start (endedProgram_kept ms _) hne htarget
  rw [hsaved] at hiff
  exact absurd ((hiff.1 hshell).1 rfl) (by decide)

theorem kernel_stack_sinks_once : ∃ first x,
    ProgramStarts .zeroExtending KernelImage.sample .blank 0x40 first 1 x ∧
      (x.reg .esp).toNat + 76 ≤ (first.reg .esp).toNat := by
  obtain ⟨ms, hms⟩ := Option.isSome_iff_exists.1 (memoryInit_default Layout.sample bootMemory rfl)
  have hload : LoaderRun Layout.sample (Confining Layout.sample) ms := .boot rfl rfl hms
  have hnext : ProgramStarts .zeroExtending KernelImage.sample .blank 0x40
      (kernelCaller fun a => ms.mem a.toNat) 1
      (userExitReturnStub .zeroExtending KernelImage.sample 0x00102000 (endedProgram ms)) :=
    .next .first (kernelCaller_starting hload) 0x00101010 0x00800000 .start
      (endedProgram_kept ms _) (.exit 0x00102000) (Nat.le_refl _)
  have hfirst : ((kernelCaller fun a => ms.mem a.toNat).reg .esp).toNat ≤
      KernelImage.sample.stackBottom.toNat + 16384 := (kernelCaller_room _).2
  have hsinks := (kernel_stack_sinks hfirst hnext).1
  rw [show 1 * (12 + (0x40 : UInt32).toNat) = 76 by decide] at hsinks
  exact ⟨_, _, hnext, hsinks⟩

end KernelCustom
