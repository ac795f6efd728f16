import KernelCustom.X86

namespace KernelCustom
open X86
set_option autoImplicit true

/-- `keyboard_handler_asm`. -/
def keyboardHandlerAsm (keyboardHandler : State → State) : List Instr :=
  [.pusha, .pushSeg .ds, .pushSeg .es, .pushSeg .fs, .pushSeg .gs,
    .movAx 0x10, .movSegAx .ds, .movSegAx .es,
    .call keyboardHandler,
    .popSeg .gs, .popSeg .fs, .popSeg .es, .popSeg .ds, .popa,
    .movAl 0x20, .outAl 0x20, .iret]

/-- `syscall_handler_asm`. -/
def syscallHandlerAsm (cSyscallHandler : State → State) : List Instr :=
  [.cli, .pusha, .pushSeg .ds, .pushSeg .es,
    .movAx 0x10, .movSegAx .ds, .movSegAx .es,
    .pushEsp, .call cSyscallHandler, .addEsp 4,
    .popSeg .es, .popSeg .ds, .popa, .iret]

/-- `page_fault_handler_asm`. -/
def pageFaultHandlerAsm (pageFaultHandler : State → State) : List Instr :=
  [.cli, .pusha, .pushSeg .ds, .pushSeg .es, .pushSeg .fs, .pushSeg .gs,
    .movAx 0x10, .movSegAx .ds, .movSegAx .es, .movSegAx .fs, .movSegAx .gs,
    .pushEsp, .call pageFaultHandler, .addEsp 4,
    .popSeg .gs, .popSeg .fs, .popSeg .es, .popSeg .ds, .popa, .addEsp 4, .iret]

inductive InterruptStub where
  | keyboard
  | syscall
  | pageFault
  deriving DecidableEq

/-- The C functions that the stubs call. Of what stands in the stack above their frames they change
the argument, and `c_syscall_handler` also `regs->eax`. -/
structure InterruptHandlers (frame : Nat) where
  keyboardHandler : CFunction (12 + frame) []
  cSyscallHandler : CFunction (11 + frame) [0, 10]
  pageFaultHandler : CFunction (14 + frame) [0]

def InterruptStub.code (C : InterruptHandlers n) : InterruptStub → List Instr
  | keyboard => keyboardHandlerAsm C.keyboardHandler.effect
  | syscall => syscallHandlerAsm C.cSyscallHandler.effect
  | pageFault => pageFaultHandlerAsm C.pageFaultHandler.effect

/-- The state in which a stub begins. A page fault pushes its error code behind the frame. -/
def InterruptStub.entry (cpu : Cpu) (gate : Gate) (err : UInt32) (s : State) :
    InterruptStub → State
  | pageFault => (s.interrupt cpu gate).push err
  | _ => s.interrupt cpu gate

/-- `regs->eax` behind the call of `c_syscall_handler`; `regs` is its argument. -/
def savedEax (cpu : Cpu) (C : InterruptHandlers n) (s : State) : UInt32 :=
  let c := atCall cpu (syscallHandlerAsm C.cSyscallHandler.effect) s
  load (C.cSyscallHandler.effect c).mem (c.top + 36)

/-- What an interrupt leaves of the state `s` that it interrupts, in the state of its `iret` and
behind it. -/
structure Transparent (cpu : Cpu) (gate : Gate) (err : UInt32) (s : State)
    (C : InterruptHandlers n) (stub : InterruptStub) (t : State) : Prop where
  esp : t.reg .esp = (s.interrupt cpu gate).reg .esp
  seg : ∀ r, r ≠ .cs → r ≠ .ss → t.seg r = s.seg r
  reg : ∀ r, r ≠ .eax → r ≠ .esp → t.reg r = s.reg r
  eax : t.reg .eax =
    if stub = .syscall then savedEax cpu C (stub.entry cpu gate err s) else s.reg .eax
  resumed : t.iret.eip = s.eip ∧ t.iret.eflags = s.eflags ∧ t.iret.reg .esp = s.reg .esp ∧
    t.iret.seg .cs = s.seg .cs ∧ t.iret.seg .ss = s.seg .ss

/-- The end of the stub for keys: the registers are back, and then `al` is overwritten. -/
theorem keyboard_atIret (cpu : Cpu) (e : State) (f : CFunction words [])
    (he : HoldsSlots e.mem (e.reg .esp) F) (hF : F.length ≤ 6) (hw : 12 + F.length ≤ words) :
    ∃ v, Agrees (atIret cpu (keyboardHandlerAsm f.effect) e) v ∧ v.stack = F ∧
      v.reg .esp = e.reg .esp ∧ (∀ r, r ≠ .eax → r ≠ .esp → v.reg r = e.reg r) ∧
      v.reg .eax = withLow8 (e.reg .eax) 0x20 ∧ v.seg = e.seg := by
  have h₀ : Agrees e ⟨e.reg, e.seg, F⟩ := ⟨rfl, rfl, he⟩
  obtain ⟨v₁, h₁, hstack₁, hesp₁, hseg₁⟩ :=
    h₀.save cpu [.ds, .es, .fs, .gs] [.ds, .es] 0x10 (Nat.lt_of_le_of_lt hF (by decide)) (by decide)
  have h₂ := h₁.call f (by rw [hstack₁, List.length_append, savedSlots_length]; exact hw)
  obtain ⟨v₃, h₃, hstack₃, hesp₃, hreg₃, hseg₃⟩ :=
    h₂.restore cpu [.ds, .es, .fs, .gs] e.reg e.seg hstack₁ (Nat.lt_of_le_of_lt hF (by decide))
      (by decide)
  have hesp : v₃.reg .esp = e.reg .esp := by
    have hback : e.reg .esp - 32 - 4 * UInt32.ofNat 4 + 4 * UInt32.ofNat 4 + 32 = e.reg .esp := by
      grind
    rw [hesp₃]
    exact (congrArg (fun x => x + 4 * UInt32.ofNat 4 + 32) hesp₁).trans hback
  have h₄ := h₃.run cpu [.movAl 0x20, .outAl 0x20] (by rw [hstack₃]; simp; omega) rfl
  refine ⟨_, h₄, hstack₃, ?_, ?_, ?_, ?_⟩
  · exact hesp
  · intro r hr hr'
    exact (Function.update_of_ne hr _ _).trans (hreg₃ r hr')
  · simp only [Function.update_self]
    rw [hreg₃ _ Reg.noConfusion]
  · funext r
    exact (hseg₃ r).trans (restored_seg (by decide) hseg₁ r)

/-- How the other stubs come to their call: its argument is the address of the saved registers. -/
theorem save_pushEsp (cpu : Cpu) (e : State) (segs data : List SegReg) (sel : UInt16)
    (he : HoldsSlots e.mem (e.reg .esp) F) (hF : F.length ≤ 6)
    (hsegs : segs.length + data.length < 100) :
    ∃ v, Agrees (run cpu (.cli :: (saveCode segs data sel ++ [.pushEsp])) e) v ∧
      v.stack = .word (v.reg .esp + 4) :: (savedSlots segs e.reg e.seg ++ F) ∧
      v.reg .esp = e.reg .esp - 32 - 4 * .ofNat segs.length - 4 ∧
      ∀ r, r ∉ data → v.seg r = e.seg r := by
  have h₀ : Agrees (exec cpu e .cli) ⟨e.reg, e.seg, F⟩ := ⟨rfl, rfl, he⟩
  obtain ⟨v₁, h₁, hstack₁, hesp₁, hseg₁⟩ :=
    h₀.save cpu segs data sel (Nat.lt_of_le_of_lt hF (by decide)) (by omega)
  have hlen : v₁.stack.length < 1000 := by
    rw [hstack₁, List.length_append, savedSlots_length]
    change segs.length + 8 + F.length < 1000
    omega
  have h₂ := h₁.run cpu [.pushEsp] (by rw [List.length_singleton]; omega) rfl
  refine ⟨v₁.push (.word (v₁.reg .esp)), ?_, ?_, ?_, hseg₁⟩
  · rw [run, List.foldl_cons, List.foldl_append]
    exact h₂
  · have hback : v₁.reg .esp = v₁.reg .esp - 4 + 4 := by grind
    simp only [View.push, Function.update_self, ← hback, hstack₁]
    rfl
  · simp only [View.push, Function.update_self, hesp₁]
    rfl

/-- The end of the stubs that pass an argument. What `popa` takes is what the call has left in the
words that `pusha` stored. -/
theorem restore_atIret (cpu : Cpu) (e : State) (segs data : List SegReg) (sel : UInt16)
    (f : CFunction words out) (old : Memory → UInt32 → Reg → UInt32)
    (he : HoldsSlots e.mem (e.reg .esp) F) (hF : F.length ≤ 6)
    (hw : segs.length + 9 + F.length ≤ words)
    (hsegs : segs.length + data.length < 100) (hdata : ∀ r ∈ data, r ∈ segs)
    (hout : ∀ m a w, setWords m a out (.word w :: (savedSlots segs e.reg e.seg ++ F)) =
      .word (load m (a + 4 * .ofNat 0)) :: (savedSlots segs (old m a) e.seg ++ F)) :
    ∃ c v, c = run cpu (.cli :: (saveCode segs data sel ++ [.pushEsp])) e ∧
      Agrees (run cpu (.addEsp 4 :: restoreCode segs) (f.effect c)) v ∧ v.stack = F ∧
      v.reg .esp = e.reg .esp ∧
      (∀ r, r ≠ .esp → v.reg r = old (f.effect c).mem (c.reg .esp) r) ∧ v.seg = e.seg := by
  obtain ⟨v₁, h₁, hstack₁, hesp₁, hseg₁⟩ := save_pushEsp cpu e segs data sel he hF hsegs
  generalize run cpu (.cli :: (saveCode segs data sel ++ [.pushEsp])) e = c at h₁
  have hlen : v₁.stack.length = segs.length + 9 + F.length := by
    rw [hstack₁, List.length_cons, List.length_append, savedSlots_length]
    omega
  have h₂ := h₁.call f (by omega)
  have hstack₂ : (v₁.afterCall out (f.effect c)).stack =
      .word (load (f.effect c).mem (c.reg .esp + 4 * .ofNat 0)) ::
        (savedSlots segs (old (f.effect c).mem (c.reg .esp)) e.seg ++ F) := by
    rw [View.afterCall, hstack₁, hout, h₁.reg]
  generalize hv₂ : v₁.afterCall out (f.effect c) = v₂ at h₂ hstack₂
  have hesp₂ : v₂.reg .esp = v₁.reg .esp := by
    rw [← hv₂]
    rfl
  have hseg₂ : v₂.seg = v₁.seg := by
    rw [← hv₂]
    rfl
  obtain ⟨reg, seg, stack⟩ := v₂
  subst hstack₂
  have h₃ := h₂.exec (by
    simp only [List.length_cons, List.length_append, savedSlots_length]
    omega) cpu (i := .addEsp 4) rfl
  obtain ⟨v₄, h₄, hstack₄, hesp₄, hreg₄, hseg₄⟩ :=
    h₃.restore cpu segs _ e.seg rfl (Nat.lt_of_le_of_lt hF (by decide)) (by omega)
  refine ⟨c, v₄, rfl, h₄, hstack₄, ?_, hreg₄, ?_⟩
  · rw [hesp₄]
    simp only [Function.update_self]
    change reg .esp = _ at hesp₂
    rw [hesp₂, hesp₁]
    grind
  · funext r
    rw [hseg₄]
    change seg = _ at hseg₂
    simp only [hseg₂]
    exact restored_seg hdata hseg₁ r

theorem syscall_atIret (cpu : Cpu) (e : State) (C : InterruptHandlers n)
    (he : HoldsSlots e.mem (e.reg .esp) F) (hF : F.length ≤ 6) (hn : F.length ≤ n) :
    ∃ v, Agrees (atIret cpu (syscallHandlerAsm C.cSyscallHandler.effect) e) v ∧ v.stack = F ∧
      v.reg .esp = e.reg .esp ∧ (∀ r, r ≠ .eax → r ≠ .esp → v.reg r = e.reg r) ∧
      v.reg .eax = savedEax cpu C e ∧ v.seg = e.seg := by
  obtain ⟨c, v, hc, hv, hstack, hesp, hreg, hseg⟩ :=
    restore_atIret cpu e [.ds, .es] [.ds, .es] 0x10 C.cSyscallHandler
      (fun m a => Function.update e.reg .eax (load m (a + 4 * .ofNat 10))) he hF
      (by simp only [List.length_cons, List.length_nil]; omega) (by decide) (by decide)
      fun _ _ _ => by
        rw [savedSlots, savedSlots, List.append_assoc, List.append_assoc, ← pushaSlots_set_eax]
        rfl
  obtain ⟨u, hu, hustack, -, -⟩ := save_pushEsp cpu e [.ds, .es] [.ds, .es] 0x10 he hF (by decide)
  rw [← hc] at hu
  refine ⟨v, ?_, hstack, hesp, ?_, ?_, hseg⟩
  · rw [hc] at hv
    exact hv
  · intro r hr hr'
    rw [hreg r hr', Function.update_of_ne hr]
  · have htop : c.top = c.reg .esp + 4 := by
      have hhead := hu.stack
      rw [hustack, ← hu.reg] at hhead
      exact hhead.head
    have heax : savedEax cpu C e = load (C.cSyscallHandler.effect c).mem (c.top + 36) := by
      rw [hc]
      rfl
    have haddr : c.reg .esp + 4 + 36 = c.reg .esp + 4 * UInt32.ofNat 10 := by grind
    rw [hreg _ Reg.noConfusion, Function.update_self, heax, htop, haddr]

theorem pageFault_atIret (cpu : Cpu) (e : State) (C : InterruptHandlers n)
    (he : HoldsSlots e.mem (e.reg .esp) (.word err :: F)) (hF : F.length ≤ 5) (hn : F.length ≤ n) :
    ∃ v, Agrees (atIret cpu (pageFaultHandlerAsm C.pageFaultHandler.effect) e) v ∧ v.stack = F ∧
      v.reg .esp = e.reg .esp + 4 ∧ (∀ r, r ≠ .esp → v.reg r = e.reg r) ∧ v.seg = e.seg := by
  obtain ⟨c, v, hc, hv, hstack, hesp, hreg, hseg⟩ :=
    restore_atIret cpu e [.ds, .es, .fs, .gs] [.ds, .es, .fs, .gs] 0x10 C.pageFaultHandler
      (fun _ _ => e.reg) he (Nat.succ_le_succ hF)
      (by simp only [List.length_cons, List.length_nil]; omega) (by decide) (by decide)
      fun _ _ _ => rfl
  have hdrop := hv.run cpu [.addEsp 4] (by
    rw [hstack]
    simp only [List.length_cons, List.length_nil]
    omega) rfl
  refine ⟨⟨Function.update v.reg .esp (v.reg .esp + 4), v.seg, v.stack.drop 1⟩, ?_,
    congrArg (List.drop 1) hstack, ?_, ?_, hseg⟩
  · rw [hc] at hdrop
    exact hdrop
  · simp only [Function.update_self, hesp]
  · intro r hr
    exact (Function.update_of_ne hr _ _).trans (hreg r hr)

/-- Setting the lowest byte changes nothing exactly when it had that value. -/
theorem withLow8_eq_self_iff (v : UInt32) (b : UInt8) : withLow8 v b = v ↔ v.toUInt8 = b := by
  have hv := v.toNat_lt
  have hb := b.toNat_lt
  rw [withLow8, ← UInt32.toNat_inj, ← UInt8.toNat_inj, UInt32.toNat_ofNat', UInt32.toNat_toUInt8]
  omega

theorem length_returnFrame (gate : Gate) (s : State) : (returnFrame gate s).length ≤ 5 := by
  rw [returnFrame]
  split
  · exact Nat.le_refl 5
  · exact Nat.le_add_right 3 2

/-- A stub that ends with the frame on top of the stack and the other registers as they were lacks
only `eax`. -/
theorem transparent_iff {stub : InterruptStub} {C : InterruptHandlers n} (hv : Agrees t v)
    (hstack : v.stack = returnFrame gate s) (hesp : v.reg .esp = (s.interrupt cpu gate).reg .esp)
    (hregs : ∀ r, r ≠ .eax → r ≠ .esp → v.reg r = (s.interrupt cpu gate).reg r)
    (hsegs : v.seg = (s.interrupt cpu gate).seg) :
    Transparent cpu gate err s C stub t ↔ v.reg .eax =
      if stub = .syscall then savedEax cpu C (stub.entry cpu gate err s) else s.reg .eax := by
  have heax : t.reg .eax = v.reg .eax := congrFun hv.reg .eax
  have hholds := hv.stack
  rw [hstack, ← hv.reg] at hholds
  rw [← hv.reg] at hesp hregs
  rw [← hv.seg] at hsegs
  constructor
  · intro h
    exact heax.symm.trans h.eax
  · intro h
    refine ⟨hesp, fun r hcs hss => ?_, fun r hr hr' => ?_, heax.trans h, ?_⟩
    · rw [hsegs]
      exact interrupt_seg cpu gate s hcs hss
    · rw [hregs r hr hr']
      exact interrupt_reg cpu gate s hr'
    · exact iret_interrupt hholds hesp (hsegs ▸ interrupt_cs cpu gate s) (congrFun hsegs .ss)

/-- Interrupts change nothing of what they interrupt, but for `eax`: a system call leaves its
result there, and a key overwrites the lowest byte with 0x20. -/
theorem interrupt_transparent_iff (cpu : Cpu) (gate : Gate) (err : UInt32) (s : State)
    (C : InterruptHandlers (returnFrame gate s).length) (stub : InterruptStub) :
    Transparent cpu gate err s C stub (atIret cpu (stub.code C) (stub.entry cpu gate err s)) ↔
      stub ≠ .keyboard ∨ (s.reg .eax).toUInt8 = 0x20 := by
  have hframe := interrupt_frame cpu gate s
  have hlen := length_returnFrame gate s
  have heax₀ : (s.interrupt cpu gate).reg .eax = s.reg .eax :=
    interrupt_reg cpu gate s Reg.noConfusion
  cases stub with
  | keyboard =>
    obtain ⟨v, hv, hstack, hesp, hregs, heax, hsegs⟩ :=
      keyboard_atIret cpu (s.interrupt cpu gate) C.keyboardHandler hframe (by omega)
        (Nat.le_refl _)
    refine (transparent_iff hv hstack hesp hregs hsegs).trans ?_
    rw [if_neg InterruptStub.noConfusion, heax, heax₀, withLow8_eq_self_iff]
    exact (or_iff_right (not_not.2 rfl)).symm
  | syscall =>
    refine iff_of_true ?_ (.inl InterruptStub.noConfusion)
    obtain ⟨v, hv, hstack, hesp, hregs, heax, hsegs⟩ :=
      syscall_atIret cpu (s.interrupt cpu gate) C hframe (by omega) (Nat.le_refl _)
    refine (transparent_iff hv hstack hesp hregs hsegs).2 ?_
    rw [if_pos rfl]
    exact heax
  | pageFault =>
    refine iff_of_true ?_ (.inl InterruptStub.noConfusion)
    have hentry : HoldsSlots ((s.interrupt cpu gate).push err).mem
        (((s.interrupt cpu gate).push err).reg .esp) (.word err :: returnFrame gate s) := by
      simp only [State.push, Function.update_self]
      exact hframe.push (by omega) rfl
    have hback : ((s.interrupt cpu gate).push err).reg .esp + 4 =
        (s.interrupt cpu gate).reg .esp := by
      simp only [State.push, Function.update_self]
      grind
    obtain ⟨v, hv, hstack, hesp, hregs, hsegs⟩ :=
      pageFault_atIret cpu ((s.interrupt cpu gate).push err) C hentry hlen (Nat.le_refl _)
    have hkeep : ∀ r, r ≠ .esp → v.reg r = (s.interrupt cpu gate).reg r := by
      intro r hr
      rw [hregs r hr]
      exact Function.update_of_ne hr _ _
    refine (transparent_iff hv hstack (hesp.trans hback) (fun r _ => hkeep r) hsegs).2 ?_
    rw [if_neg InterruptStub.noConfusion]
    exact (hkeep .eax Reg.noConfusion).trans heax₀

/-- A user program with zeros in its registers. -/
def sampleProgram : State where
  reg := fun r => if r = .esp then 0x00BFFFF0 else 0
  seg := fun r => if r = .cs then 0x1B else 0x23
  eip := 0x00800000
  eflags := 0x202
  mem := fun _ => 0
  ports := []

/-- A program that is interrupted by a key goes on with 0x20 in `eax`. -/
theorem key_interrupt_overwrites_al :
    ¬ ∀ (cpu : Cpu) (gate : Gate) (err : UInt32) (s : State)
      (C : InterruptHandlers (returnFrame gate s).length) (stub : InterruptStub),
      Transparent cpu gate err s C stub
        (atIret cpu (stub.code C) (stub.entry cpu gate err s)) := by
  intro h
  have heax := (h .zeroExtending ⟨0x08, 0x00110000, 0x10, 0x00300000⟩ 0 sampleProgram
    ⟨.idle _ _, .idle _ _, .idle _ _⟩ .keyboard).eax
  obtain ⟨v, hv, -, -, -, hal, -⟩ :=
    keyboard_atIret (F := returnFrame ⟨0x08, 0x00110000, 0x10, 0x00300000⟩ sampleProgram)
      .zeroExtending (sampleProgram.interrupt .zeroExtending ⟨0x08, 0x00110000, 0x10, 0x00300000⟩)
      (.idle (12 + 5) []) (interrupt_frame ..) (by decide) (by decide)
  rw [if_neg InterruptStub.noConfusion] at heax
  have hclobbered : withLow8 0 0x20 = (0 : UInt32) := by
    rw [interrupt_reg _ _ _ Reg.noConfusion] at hal
    exact hal.symm.trans ((congrFun hv.reg .eax).symm.trans heax)
  exact absurd hclobbered (by decide)

end KernelCustom
