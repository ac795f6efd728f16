import KernelCustom.Pic8259
import KernelCustom.ShellInput

namespace KernelCustom
open Pic8259
set_option autoImplicit true

/-- The bytes that `pic_remap` writes, with their ports. -/
def picRemapWrites : List (UInt16 × UInt8) :=
  [(0x20, 0x11), (0xA0, 0x11), (0x21, 0x20), (0xA1, 0x28), (0x21, 0x04), (0xA1, 0x02),
    (0x21, 0x01), (0xA1, 0x01), (0x21, 0xFF), (0xA1, 0xFF)]

/-- `idt_init` opens the line of the keyboard at its end. -/
def idtInitWrites : List (UInt16 × UInt8) := picRemapWrites ++ [(0x21, 0xFD)]

/-- What the processor does, as far as keys and the controllers matter. -/
inductive Duty where
  /-- In `idt_init`, with the writes that are still to come. -/
  | setup (rest : List (UInt16 × UInt8))
  | running (ifFlag : Bool)
  /-- In `keyboard_handler`, before its `inb(0x64)`. -/
  | readStatus
  | readData (status : UInt8)
  /-- Before the `outb(0x20, 0x20)` of `keyboard_handler`. -/
  | sendEoi
  /-- Before the `out 0x20, al` of `keyboard_handler_asm`. -/
  | sendEoiAgain
  | iret
  /-- Behind a vector that has no gate of the keyboard. -/
  | astray (vector : UInt8)

/-- The way of a scan code: the keyboard has some to send, the keyboard controller holds one in its
output buffer, and `keyboard_handler` works for the kernel on those that it has read. All codes
that the keyboard has had to send and all vectors that the processor got are kept. -/
structure KeyWire (σ : Type) where
  queue : List UInt8
  output : Option UInt8
  pics : Pair
  duty : Duty
  kernel : σ
  received : List UInt8
  sent : List UInt8
  vectors : List UInt8

section
variable {σ : Type}

/-- The state behind the first `outb` of `pic_remap`. -/
def KeyWire.start (queue : List UInt8) (output : Option UInt8) (p : Pair) (kernel : σ) :
    KeyWire σ :=
  ⟨queue, output, p.write 0x20 0x11, .setup idtInitWrites.tail, kernel, [],
    output.toList ++ queue, []⟩

/-- The processor takes an interrupt. The gate of the keyboard clears the interrupt flag. -/
def KeyWire.interrupt (s : KeyWire σ) : KeyWire σ :=
  let (v, pics) := s.pics.acknowledge
  { s with
    pics, vectors := s.vectors ++ [v]
    duty := if v = 0x21 then .readStatus else .astray v }

/-- `inb(0x60)` empties the output buffer, and the request line of the keyboard goes down. An empty
buffer gives any byte. -/
def KeyWire.readPort (handler : σ → UInt8 → UInt8 → σ) (s : KeyWire σ) (status stale : UInt8) :
    KeyWire σ :=
  let code := s.output.getD stale
  { s with
    output := none, pics := s.pics.setIrq 1 false, duty := .sendEoi
    kernel := handler s.kernel status code, received := s.received ++ [code] }

/-- One step. The other devices raise and lower their lines at any time, and between its interrupts
the kernel sets and clears the interrupt flag and does its own work. -/
inductive KeyWire.Step (handler : σ → UInt8 → UInt8 → σ) (work : σ → σ → Prop) :
    KeyWire σ → KeyWire σ → Prop
  | type (code : UInt8) :
      Step handler work s { s with queue := s.queue ++ [code], sent := s.sent ++ [code] }
  -- the output buffer is free for the next code, and the line of the keyboard goes up
  | fill (hout : s.output = none) (hqueue : s.queue = code :: rest) :
      Step handler work s
        { s with queue := rest, output := some code, pics := s.pics.setIrq 1 true }
  | line (i : Nat) (hne : i ≠ 1) (up : Bool) :
      Step handler work s { s with pics := s.pics.setIrq i up }
  | write (hduty : s.duty = .setup ((port, b) :: rest)) :
      Step handler work s { s with pics := s.pics.write port b, duty := .setup rest }
  | ready (hduty : s.duty = .setup []) : Step handler work s { s with duty := .running false }
  | setIf (hduty : s.duty = .running ifFlag) (ifFlag' : Bool) :
      Step handler work s { s with duty := .running ifFlag' }
  | work (hduty : s.duty = .running ifFlag) (hwork : work s.kernel k) :
      Step handler work s { s with kernel := k }
  | interrupt (hduty : s.duty = .running true) (hint : s.pics.asserts = true) :
      Step handler work s s.interrupt
  -- bit 0 of the status says whether the output buffer is full
  | full (hduty : s.duty = .readStatus) (hs : status &&& 1 ≠ 0) (hout : s.output.isSome = true) :
      Step handler work s { s with duty := .readData status }
  | empty (hduty : s.duty = .readStatus) (hs : ¬ status &&& 1 ≠ 0) (hout : s.output = none)
      (scancode : UInt8) :
      Step handler work s { s with kernel := handler s.kernel status scancode, duty := .sendEoi }
  | data (hduty : s.duty = .readData status) (stale : UInt8) :
      Step handler work s (s.readPort handler status stale)
  | eoi (hduty : s.duty = .sendEoi) :
      Step handler work s { s with pics := s.pics.write 0x20 0x20, duty := .sendEoiAgain }
  | eoiAgain (hduty : s.duty = .sendEoiAgain) :
      Step handler work s { s with pics := s.pics.write 0x20 0x20, duty := .iret }
  | iret (hduty : s.duty = .iret) : Step handler work s { s with duty := .running true }

abbrev KeyWire.Reachable (handler : σ → UInt8 → UInt8 → σ) (work : σ → σ → Prop) :
    KeyWire σ → KeyWire σ → Prop :=
  Relation.ReflTransGen (KeyWire.Step handler work)

/-- The interrupt of the keyboard is in service. -/
def Duty.serving : Duty → Bool
  | readStatus => true
  | readData _ => true
  | sendEoi => true
  | _ => false

/-- `keyboard_handler` has not read its scan code yet. -/
def Duty.reading : Duty → Bool
  | readStatus => true
  | readData _ => true
  | _ => false

/-- What the writes so far have made of the registers `r₀` of the first controller. -/
def Duty.Programmed (r₀ r : Registers) : Duty → Prop
  | setup rest => ∃ done, idtInitWrites = (0x20, 0x11) :: done ++ rest ∧
      r = done.foldl (fun r w => r.write w.1 w.2) (r₀.write 0x20 0x11)
  | astray _ => False
  | duty => r.Only 0x20 1 ∧ r.inService 1 = duty.serving

/-- No scan code is lost or read twice, and nothing but keys interrupts. -/
structure KeyWire.Sound (r₀ : Registers) (s : KeyWire σ) : Prop where
  line : s.pics.master.line 1 = s.output.isSome
  codes : s.received ++ s.output.toList ++ s.queue = s.sent
  vectors : ∀ v ∈ s.vectors, v = 0x21
  full : s.duty.reading = true → s.output.isSome = true
  programmed : s.duty.Programmed r₀ s.pics.master.regs

/-- The writes leave the first controller with its interrupts from 0x20 on and all lines masked
but that of the keyboard. -/
theorem idtInit_only (r₀ : Registers) :
    (idtInitWrites.foldl (fun r w => r.write w.1 w.2) r₀).Only 0x20 1 ∧
      (idtInitWrites.foldl (fun r w => r.write w.1 w.2) r₀).inService 1 = false := by
  have hregs : idtInitWrites.foldl (fun r w => r.write w.1 w.2) r₀ =
      ⟨.ready, 0x20, 0xFD, false, false, fun _ => false⟩ := rfl
  rw [hregs]
  exact ⟨⟨by decide, rfl, rfl, by decide, by decide, rfl, rfl, fun _ _ _ => rfl⟩, rfl⟩

theorem write_endOfInterrupt {p : Pair} (h : p.master.regs.Only 0x20 1) :
    (p.write 0x20 0x20).master.regs.Only 0x20 1 ∧
      (p.write 0x20 0x20).master.regs.inService 1 = false := by
  have hregs : (p.write 0x20 0x20).master.regs = p.master.regs.serve 1 false :=
    (p.write_regs 0x20 0x20).trans h.endOfInterrupt
  rw [hregs]
  exact ⟨h.serve false, p.master.regs.serve_inService 1 false⟩

theorem setIrq_keyboard_line (p : Pair) (up : Bool) : (p.setIrq 1 up).master.line 1 = up :=
  p.master.setLine_line 1 up

theorem setIrq_keyboard_risen (p : Pair) (up : Bool) :
    (p.setIrq 1 up).master.risen 1 = (up && (p.master.risen 1 || !p.master.line 1)) :=
  p.master.setLine_risen 1 up

variable {handler : σ → UInt8 → UInt8 → σ} {work : σ → σ → Prop} {r₀ : Registers}
  {s s' : KeyWire σ}

/-- An interrupt that the processor takes is one of the keyboard. -/
theorem KeyWire.Sound.interrupt_eq (h : s.Sound r₀) (hduty : s.duty = .running true)
    (hint : s.pics.asserts = true) : s.pics.master.line 1 = true ∧ s.pics.master.risen 1 = true ∧
      s.interrupt = { s with
        pics := { s.pics with master := ⟨s.pics.master.regs.serve 1 true, s.pics.master.line,
          Function.update s.pics.master.risen 1 false⟩ }
        vectors := s.vectors ++ [0x21], duty := .readStatus } := by
  have hprog := h.programmed
  rw [hduty] at hprog
  obtain ⟨hline, hrisen, hack⟩ := Pair.acknowledge_of_only hprog.1 (by decide) hint
  refine ⟨hline, hrisen, ?_⟩
  rw [interrupt, hack]
  rfl

theorem KeyWire.Sound.interrupt (h : s.Sound r₀) (hduty : s.duty = .running true)
    (hint : s.pics.asserts = true) : s.interrupt.Sound r₀ := by
  have hprog := h.programmed
  rw [hduty] at hprog
  obtain ⟨hline, -, heq⟩ := h.interrupt_eq hduty hint
  rw [heq]
  refine ⟨h.line, h.codes, ?_, fun _ => ?_, hprog.1.serve true,
    s.pics.master.regs.serve_inService 1 true⟩
  · intro v hv
    rcases List.mem_append.1 hv with hv | hv
    · exact h.vectors v hv
    · exact List.mem_singleton.1 hv
  · exact h.line.symm.trans hline

theorem KeyWire.Sound.readPort (h : s.Sound r₀) (hduty : s.duty = .readData status)
    (stale : UInt8) : (s.readPort handler status stale).Sound r₀ := by
  have hprog := h.programmed
  have hfull := h.full
  have hcodes := h.codes
  rw [hduty] at hprog hfull
  obtain ⟨code, hout⟩ := Option.isSome_iff_exists.1 (hfull rfl)
  rw [hout] at hcodes
  refine ⟨setIrq_keyboard_line _ _, ?_, h.vectors, Bool.noConfusion, ?_⟩
  · dsimp only [KeyWire.readPort]
    rw [hout, Option.getD_some, Option.toList_none, List.append_nil]
    exact hcodes
  · change Registers.Only _ _ _ ∧ _
    dsimp only [KeyWire.readPort]
    rw [Pair.setIrq_regs]
    exact hprog

/-- A write of `idt_init` behind the first. -/
theorem KeyWire.Sound.write (h : s.Sound r₀) (hduty : s.duty = .setup ((port, b) :: rest)) :
    KeyWire.Sound r₀ { s with pics := s.pics.write port b, duty := .setup rest } := by
  have hprog := h.programmed
  rw [hduty] at hprog
  obtain ⟨done, hdone, hregs⟩ := hprog
  refine ⟨(Pair.write_line _ (by decide) _ _).trans h.line, h.codes, h.vectors,
    Bool.noConfusion, done ++ [(port, b)], ?_, ?_⟩
  · rw [hdone]
    simp only [List.cons_append, List.append_assoc, List.nil_append]
  · rw [Pair.write_regs, hregs, List.foldl_concat]

theorem KeyWire.Sound.ready (h : s.Sound r₀) (hduty : s.duty = .setup []) :
    KeyWire.Sound r₀ { s with duty := .running false } := by
  have hprog := h.programmed
  rw [hduty] at hprog
  obtain ⟨done, hdone, hregs⟩ := hprog
  refine ⟨h.line, h.codes, h.vectors, Bool.noConfusion, ?_⟩
  change Registers.Only _ _ _ ∧ _
  have hall := idtInit_only r₀
  rw [hdone, List.append_nil, List.foldl_cons, ← hregs] at hall
  exact hall

theorem KeyWire.Step.sound (hstep : KeyWire.Step handler work s s') (h : s.Sound r₀) :
    s'.Sound r₀ := by
  have hprog := h.programmed
  cases hstep with
  | type code =>
    refine ⟨h.line, ?_, h.vectors, h.full, hprog⟩
    dsimp only
    rw [← List.append_assoc, h.codes]
  | @fill _ code rest hout hqueue =>
    have hcodes := h.codes
    rw [hout, hqueue] at hcodes
    refine ⟨setIrq_keyboard_line _ _, ?_, h.vectors, fun _ => rfl, ?_⟩
    · rw [← hcodes]
      simp only [Option.toList_some, Option.toList_none, List.append_assoc, List.nil_append,
        List.cons_append]
    · dsimp only
      rw [Pair.setIrq_regs]
      exact hprog
  | line i hne up =>
    refine ⟨(Pair.setIrq_of_ne _ (by decide) hne up).1.trans h.line, h.codes, h.vectors, h.full, ?_⟩
    dsimp only
    rw [Pair.setIrq_regs]
    exact hprog
  | write hduty => exact h.write hduty
  | ready hduty => exact h.ready hduty
  | setIf hduty ifFlag' =>
    rw [hduty] at hprog
    exact ⟨h.line, h.codes, h.vectors, Bool.noConfusion, hprog⟩
  | work hduty hwork => exact ⟨h.line, h.codes, h.vectors, h.full, hprog⟩
  | interrupt hduty hint => exact h.interrupt hduty hint
  | full hduty hs hout =>
    rw [hduty] at hprog
    exact ⟨h.line, h.codes, h.vectors, fun _ => hout, hprog⟩
  | empty hduty hs hout scancode =>
    rw [hduty] at hprog
    exact ⟨h.line, h.codes, h.vectors, Bool.noConfusion, hprog⟩
  | data hduty stale => exact h.readPort hduty stale
  | eoi hduty =>
    rw [hduty] at hprog
    exact ⟨(Pair.write_line _ (by decide) _ _).trans h.line, h.codes, h.vectors,
      Bool.noConfusion, write_endOfInterrupt hprog.1⟩
  | eoiAgain hduty =>
    rw [hduty] at hprog
    exact ⟨(Pair.write_line _ (by decide) _ _).trans h.line, h.codes, h.vectors,
      Bool.noConfusion, write_endOfInterrupt hprog.1⟩
  | iret hduty =>
    rw [hduty] at hprog
    exact ⟨h.line, h.codes, h.vectors, Bool.noConfusion, hprog⟩

theorem KeyWire.start_sound (queue : List UInt8) {output : Option UInt8} {p : Pair} (kernel : σ)
    (hline : p.master.line 1 = output.isSome) :
    (start queue output p kernel).Sound p.master.regs :=
  ⟨(p.write_line (by decide) _ _).trans hline, rfl, fun _ hv => absurd hv List.not_mem_nil,
    Bool.noConfusion, [], rfl, p.write_regs _ _⟩

theorem KeyWire.Reachable.sound (hr : KeyWire.Reachable handler work s s') (h : s.Sound r₀) :
    s'.Sound r₀ := by
  induction hr with
  | refl => exact h
  | tail _ hstep ih => exact hstep.sound ih

/-! Whether a scan code that waits is ever read. -/

/-- Behind the first write `idt_init` writes no ICW1. -/
theorem KeyWire.Sound.later_write (h : s.Sound r₀) (hduty : s.duty = .setup ((port, b) :: rest)) :
    port ≠ 0x20 := by
  have hprog := h.programmed
  rw [hduty] at hprog
  obtain ⟨done, hdone, -⟩ := hprog
  have htail : ∀ w ∈ idtInitWrites.tail, w.1 ≠ 0x20 := by simp [idtInitWrites, picRemapWrites]
  refine htail (port, b) ?_
  rw [hdone]
  exact List.mem_append_right done List.mem_cons_self

/-- A code that waits has raised an interrupt that is still to be taken, or is about to be read. -/
def KeyWire.Heard (s : KeyWire σ) : Prop :=
  s.output.isSome = true → s.pics.master.risen 1 = true ∨ s.duty.reading = true

theorem KeyWire.Heard.of_idle (h : s.Heard) (hduty : s.duty.reading = false)
    (hout : s.output.isSome = true) : s.pics.master.risen 1 = true := by
  rcases h hout with hrisen | hread
  · exact hrisen
  · rw [hduty] at hread
    cases hread

theorem KeyWire.Step.heard (hstep : KeyWire.Step handler work s s') (hs : s.Sound r₀)
    (h : s.Heard) : s'.Heard := by
  cases hstep with
  | type code => exact h
  | fill hout hqueue =>
    intro _
    have hline := hs.line
    rw [hout] at hline
    refine .inl ((setIrq_keyboard_risen _ _).trans ?_)
    rw [hline, Option.isSome_none, Bool.not_false, Bool.or_true]
    rfl
  | line i hne up =>
    intro hout
    have hrisen := (s.pics.setIrq_of_ne (i := 1) (by decide) hne up).2
    exact (h hout).imp_left hrisen.trans
  | @write _ port b rest hduty =>
    intro hout
    have hrisen := s.pics.write_risen (i := 1) (by decide) port b
    have hport := hs.later_write hduty
    rw [decide_eq_false fun he => hport he.1, Bool.not_false, Bool.and_true] at hrisen
    exact .inl (hrisen.trans (h.of_idle (by rw [hduty]; rfl) hout))
  | ready hduty => exact fun hout => .inl (h.of_idle (by rw [hduty]; rfl) hout)
  | setIf hduty ifFlag' => exact fun hout => .inl (h.of_idle (by rw [hduty]; rfl) hout)
  | work hduty hwork => exact h
  | interrupt hduty hint =>
    rw [(hs.interrupt_eq hduty hint).2.2]
    exact fun _ => .inr rfl
  | full hduty hbit hout => exact fun _ => .inr rfl
  | empty hduty hbit hout scancode =>
    intro hsome
    dsimp only at hsome
    rw [hout] at hsome
    cases hsome
  | data hduty stale =>
    intro hsome
    cases hsome
  | eoi hduty =>
    have hrisen := s.pics.write_risen (i := 1) (by decide) 0x20 0x20
    rw [decide_eq_false (by decide), Bool.not_false, Bool.and_true] at hrisen
    exact fun hout => .inl (hrisen.trans (h.of_idle (by rw [hduty]; rfl) hout))
  | eoiAgain hduty =>
    have hrisen := s.pics.write_risen (i := 1) (by decide) 0x20 0x20
    rw [decide_eq_false (by decide), Bool.not_false, Bool.and_true] at hrisen
    exact fun hout => .inl (hrisen.trans (h.of_idle (by rw [hduty]; rfl) hout))
  | iret hduty => exact fun hout => .inl (h.of_idle (by rw [hduty]; rfl) hout)

/-- The line of the keyboard is up, but has not risen since the first write: no interrupt comes,
and so nobody reads the code that keeps the line up. -/
structure KeyWire.Deaf (s : KeyWire σ) : Prop where
  waits : s.output.isSome = true
  unnoticed : s.pics.master.risen 1 = false
  idle : (∃ rest, s.duty = .setup rest) ∨ ∃ ifFlag, s.duty = .running ifFlag
  received : s.received = []
  vectors : s.vectors = []

theorem KeyWire.Deaf.not_handling (h : s.Deaf) (hsetup : ∀ rest, s.duty ≠ .setup rest)
    (hrunning : ∀ ifFlag, s.duty ≠ .running ifFlag) : False := by
  obtain ⟨rest, hduty⟩ | ⟨ifFlag, hduty⟩ := h.idle
  · exact hsetup rest hduty
  · exact hrunning ifFlag hduty

theorem KeyWire.Step.deaf (hstep : KeyWire.Step handler work s s') (hs : s.Sound r₀)
    (h : s.Deaf) : s'.Deaf := by
  have hhandling := h.not_handling
  cases hstep with
  | type code => exact ⟨h.waits, h.unnoticed, h.idle, h.received, h.vectors⟩
  | fill hout hqueue =>
    have hwaits := h.waits
    rw [hout] at hwaits
    cases hwaits
  | line i hne up =>
    have hrisen := (s.pics.setIrq_of_ne (i := 1) (by decide) hne up).2
    exact ⟨h.waits, hrisen.trans h.unnoticed, h.idle, h.received, h.vectors⟩
  | @write _ port b rest hduty =>
    have hrisen := s.pics.write_risen (i := 1) (by decide) port b
    rw [h.unnoticed, Bool.false_and] at hrisen
    exact ⟨h.waits, hrisen, .inl ⟨rest, rfl⟩, h.received, h.vectors⟩
  | ready hduty => exact ⟨h.waits, h.unnoticed, .inr ⟨false, rfl⟩, h.received, h.vectors⟩
  | setIf hduty ifFlag' => exact ⟨h.waits, h.unnoticed, .inr ⟨ifFlag', rfl⟩, h.received, h.vectors⟩
  | work hduty hwork => exact ⟨h.waits, h.unnoticed, h.idle, h.received, h.vectors⟩
  | interrupt hduty hint =>
    have hrisen := (hs.interrupt_eq hduty hint).2.1
    rw [h.unnoticed] at hrisen
    cases hrisen
  | full hduty | empty hduty | data hduty | eoi hduty | eoiAgain hduty | iret hduty =>
    refine (hhandling (fun rest he => ?_) fun ifFlag he => ?_).elim
    · rw [hduty] at he
      cases he
    · rw [hduty] at he
      cases he

end

end KernelCustom
