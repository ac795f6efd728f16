import KernelCustom.KeyboardInterrupts

namespace KernelCustom
open Pic8259
set_option autoImplicit true

section
variable {σ : Type} {handler : σ → UInt8 → UInt8 → σ} {work : σ → σ → Prop} {r₀ : Registers}
  {s t u : KeyWire σ}

theorem KeyWire.Reachable.heard (hr : KeyWire.Reachable handler work s t) (hs : s.Sound r₀)
    (h : s.Heard) : t.Heard := by
  induction hr with
  | refl => exact h
  | tail hbefore hstep ih => exact hstep.heard (Reachable.sound hbefore hs) ih

theorem KeyWire.Reachable.deaf (hr : KeyWire.Reachable handler work s t) (hs : s.Sound r₀)
    (h : s.Deaf) : t.Deaf := by
  induction hr with
  | refl => exact h
  | tail hbefore hstep ih => exact hstep.deaf (Reachable.sound hbefore hs) ih

/-- A run to the next point at which the processor takes interrupts, without new codes. -/
structure KeyWire.Returns (handler : σ → UInt8 → UInt8 → σ) (work : σ → σ → Prop)
    (s t : KeyWire σ) : Prop where
  run : KeyWire.Reachable handler work s t
  duty : t.duty = .running true
  queue : t.queue = s.queue
  sent : t.sent = s.sent

/-- Other steps before such a run. -/
theorem KeyWire.Returns.after (h : KeyWire.Returns handler work t u)
    (hrun : KeyWire.Reachable handler work s t) (hqueue : t.queue = s.queue)
    (hsent : t.sent = s.sent) : KeyWire.Returns handler work s u :=
  ⟨hrun.trans h.run, h.duty, h.queue.trans hqueue, h.sent.trans hsent⟩

theorem KeyWire.sendEoi_returns (hduty : s.duty = .sendEoi) :
    ∃ t, KeyWire.Returns handler work s t ∧ t.output = s.output := by
  have h₁ : KeyWire.Reachable handler work s _ := .single (.eoi hduty)
  have h₂ := h₁.tail (.eoiAgain rfl)
  exact ⟨_, ⟨h₂.tail (.iret rfl), rfl, rfl, rfl⟩, rfl⟩

theorem KeyWire.readData_returns (hduty : s.duty = .readData status) :
    ∃ t, KeyWire.Returns handler work s t ∧ t.output = none := by
  have h₁ : KeyWire.Reachable handler work s (s.readPort handler status 0) :=
    .single (.data hduty 0)
  obtain ⟨t, ht, hout⟩ : ∃ t, KeyWire.Returns handler work (s.readPort handler status 0) t ∧
      t.output = none := sendEoi_returns rfl
  exact ⟨t, ht.after h₁ rfl rfl, hout⟩

/-- With a code in the output buffer, `keyboard_handler` takes it. -/
theorem KeyWire.readStatus_returns (hduty : s.duty = .readStatus) (hout : s.output.isSome = true) :
    ∃ t, KeyWire.Returns handler work s t ∧ t.output = none := by
  have h₁ : KeyWire.Reachable handler work s { s with duty := .readData 1 } :=
    .single (.full hduty (by decide) hout)
  obtain ⟨t, ht, hnone⟩ : ∃ t, KeyWire.Returns handler work { s with duty := .readData 1 } t ∧
      t.output = none := readData_returns rfl
  exact ⟨t, ht.after h₁ rfl rfl, hnone⟩

theorem KeyWire.setup_returns (rest : List (UInt16 × UInt8)) (hduty : s.duty = .setup rest) :
    ∃ t, KeyWire.Returns handler work s t := by
  induction rest generalizing s with
  | nil =>
    have h₁ : KeyWire.Reachable handler work s { s with duty := .running false } :=
      .single (.ready hduty)
    exact ⟨_, h₁.tail (.setIf rfl true), rfl, rfl, rfl⟩
  | cons w rest ih =>
    obtain ⟨port, b⟩ := w
    have h₁ : KeyWire.Reachable handler work s
        { s with pics := s.pics.write port b, duty := .setup rest } := .single (.write hduty)
    obtain ⟨t, ht⟩ := ih (s := { s with pics := s.pics.write port b, duty := .setup rest }) rfl
    exact ⟨t, ht.after h₁ rfl rfl⟩

/-- From wherever it is, the processor can get to take interrupts. -/
theorem KeyWire.Sound.returns (h : s.Sound r₀) : ∃ t, KeyWire.Returns handler work s t := by
  cases hduty : s.duty with
  | setup rest => exact setup_returns rest hduty
  | running ifFlag => exact ⟨_, .single (.setIf hduty true), rfl, rfl, rfl⟩
  | readStatus =>
    have hfull := h.full
    rw [hduty] at hfull
    obtain ⟨t, ht, -⟩ := readStatus_returns hduty (hfull rfl)
    exact ⟨t, ht⟩
  | readData status =>
    obtain ⟨t, ht, -⟩ := readData_returns hduty
    exact ⟨t, ht⟩
  | sendEoi =>
    obtain ⟨t, ht, -⟩ := sendEoi_returns hduty
    exact ⟨t, ht⟩
  | sendEoiAgain =>
    have h₁ : KeyWire.Reachable handler work s _ := .single (.eoiAgain hduty)
    exact ⟨_, h₁.tail (.iret rfl), rfl, rfl, rfl⟩
  | iret => exact ⟨_, .single (.iret hduty), rfl, rfl, rfl⟩
  | astray vector =>
    have hprog := h.programmed
    rw [hduty] at hprog
    exact hprog.elim

/-- A code that waits while the processor works has its interrupt pending. -/
theorem KeyWire.Heard.asserts (h : s.Heard) (hs : s.Sound r₀) (hduty : s.duty = .running ifFlag)
    (hout : s.output.isSome = true) : s.pics.asserts = true := by
  have hprog := hs.programmed
  rw [hduty] at hprog
  exact Pair.asserts_of_only hprog.1 (hs.line.trans hout) (h.of_idle (by rw [hduty]; rfl) hout)
    hprog.2

theorem KeyWire.Heard.takes (h : s.Heard) (hs : s.Sound r₀) (hduty : s.duty = .running true) :
    ∃ t, KeyWire.Returns handler work s t ∧ t.output = none := by
  cases hout : s.output with
  | none => exact ⟨s, ⟨.refl, hduty, rfl, rfl⟩, hout⟩
  | some code =>
    have hsome : s.output.isSome = true := by
      rw [hout]
      rfl
    have hint := h.asserts hs hduty hsome
    have h₁ : KeyWire.Reachable handler work s s.interrupt := .single (.interrupt hduty hint)
    have heq := (hs.interrupt_eq hduty hint).2.2
    obtain ⟨t, ht, hnone⟩ : ∃ t, KeyWire.Returns handler work s.interrupt t ∧ t.output = none := by
      rw [heq]
      exact readStatus_returns rfl hsome
    exact ⟨t, ht.after h₁ rfl rfl, hnone⟩

/-- The codes of the queue follow one after the other. -/
theorem KeyWire.Heard.drains (queue : List UInt8) (h : s.Heard) (hs : s.Sound r₀)
    (hduty : s.duty = .running true) (hqueue : s.queue = queue) :
    ∃ t, KeyWire.Reachable handler work s t ∧ t.sent = s.sent ∧ t.output = none ∧
      t.queue = [] := by
  induction queue generalizing s with
  | nil =>
    obtain ⟨t, ht, hnone⟩ : ∃ t, KeyWire.Returns handler work s t ∧ t.output = none :=
      h.takes hs hduty
    exact ⟨t, ht.run, ht.sent, hnone, ht.queue.trans hqueue⟩
  | cons code queue ih =>
    obtain ⟨t, ht, hnone⟩ : ∃ t, KeyWire.Returns handler work s t ∧ t.output = none :=
      h.takes hs hduty
    have hstep : KeyWire.Step handler work t
        { t with queue, output := some code, pics := t.pics.setIrq 1 true } :=
      .fill hnone (ht.queue.trans hqueue)
    have ht' := Reachable.sound ht.run hs
    obtain ⟨u, hu, hsent, hdone⟩ :=
      ih (hstep.heard ht' (Reachable.heard ht.run hs h)) (hstep.sound ht') ht.duty rfl
    exact ⟨u, (ht.run.tail hstep).trans hu, hsent.trans ht.sent, hdone⟩

theorem KeyWire.start_risen (queue : List UInt8) (output : Option UInt8) (p : Pair) (kernel : σ) :
    (start queue output p kernel).pics.master.risen 1 = false := by
  have hrisen := p.write_risen (i := 1) (by decide) 0x20 0x11
  rw [decide_eq_true (by decide), Bool.not_true, Bool.and_false] at hrisen
  exact hrisen

/-- The keyboard works for good exactly when no scan code waits at the first write of `pic_remap`:
then a code that waits always has its interrupt pending, and from every state on each code that was
sent can still be read. Otherwise no interrupt ever comes. -/
theorem keyboard_alive_iff (handler : σ → UInt8 → UInt8 → σ) (work : σ → σ → Prop)
    (queue : List UInt8) (output : Option UInt8) (p : Pair) (kernel : σ)
    (hline : p.master.line 1 = output.isSome) :
    ((∀ s, KeyWire.Reachable handler work (.start queue output p kernel) s →
        (∀ ifFlag, s.duty = .running ifFlag → s.output.isSome = true → s.pics.asserts = true) ∧
          ∃ t, KeyWire.Reachable handler work s t ∧ t.sent = s.sent ∧ t.received = s.sent) ↔
      output = none) ∧
    (output ≠ none → ∀ s, KeyWire.Reachable handler work (.start queue output p kernel) s →
      s.vectors = [] ∧ s.received = []) := by
  have hstart := KeyWire.start_sound queue kernel hline
  have hdead : output ≠ none →
      ∀ s, KeyWire.Reachable handler work (.start queue output p kernel) s →
        s.vectors = [] ∧ s.received = [] := by
    intro hout s hr
    have hdeaf : (KeyWire.start queue output p kernel).Deaf :=
      ⟨Option.isSome_iff_ne_none.2 hout, KeyWire.start_risen queue output p kernel,
        .inl ⟨idtInitWrites.tail, rfl⟩, rfl, rfl⟩
    have hend := KeyWire.Reachable.deaf hr hstart hdeaf
    exact ⟨hend.vectors, hend.received⟩
  refine ⟨⟨fun halive => ?_, ?_⟩, hdead⟩
  · by_contra hout
    obtain ⟨-, t, hrun, -, hreceived⟩ := halive _ .refl
    obtain ⟨code, rfl⟩ := Option.ne_none_iff_exists'.1 hout
    rw [(hdead hout t hrun).2] at hreceived
    cases hreceived
  · rintro rfl s hr
    have hs := KeyWire.Reachable.sound hr hstart
    have hheard := KeyWire.Reachable.heard hr hstart fun hout => Bool.noConfusion hout
    refine ⟨fun ifFlag hduty hout => hheard.asserts hs hduty hout, ?_⟩
    obtain ⟨t, ht⟩ : ∃ t, KeyWire.Returns handler work s t := hs.returns
    have hheard' := KeyWire.Reachable.heard ht.run hs hheard
    have hs' := KeyWire.Reachable.sound ht.run hs
    obtain ⟨u, hu, hsent, hout, hqueue⟩ := hheard'.drains t.queue hs' ht.duty rfl
    have hcodes := (KeyWire.Reachable.sound hu hs').codes
    rw [hout, hqueue, Option.toList_none, List.append_nil, List.append_nil] at hcodes
    exact ⟨u, ht.run.trans hu, hsent.trans ht.sent, hcodes.trans (hsent.trans ht.sent)⟩

end

/-! The shell behind the wire. -/

/-- `keyboard_handler` with what it reads, whether there was a scan code or not. -/
def ShellInput.handle (s : ShellInput ω) (status code : UInt8) : ShellInput ω :=
  if status &&& 1 ≠ 0 then s.interrupt status code
  else { s with keyboard := keyboardHandler s.keyboard status code }

/-- A step of the shell or of `keyboard_buffer_pop`: it brings no scan code. -/
def ShellInput.Works (cmds : ShellCommands ω) (s t : ShellInput ω) : Prop :=
  ShellInput.Step cmds s t ∧ t.codes = s.codes

/-- What the shell gets are the codes that were read, each by an interrupt of its own. -/
structure KeyWire.Feeds (cmds : ShellCommands ω) (s₀ : ShellInput ω)
    (s : KeyWire (ShellInput ω)) : Prop where
  run : Relation.ReflTransGen (ShellInput.Step cmds) s₀ s.kernel
  codes : s.kernel.codes = s₀.codes ++ s.received
  full : ∀ status, s.duty = .readData status → status &&& 1 ≠ 0

section
variable {ω : Type} {cmds : ShellCommands ω} {s₀ : ShellInput ω} {s t : KeyWire (ShellInput ω)}

theorem KeyWire.Feeds.handle (h : s.Feeds cmds s₀) (hs : ¬ status &&& 1 ≠ 0) (code : UInt8) :
    Relation.ReflTransGen (ShellInput.Step cmds) s₀ (s.kernel.handle status code) ∧
      (s.kernel.handle status code).codes = s.kernel.codes := by
  rw [ShellInput.handle, if_neg hs]
  exact ⟨h.run.tail (.spurious hs code), rfl⟩

theorem KeyWire.Step.feeds (hstep : KeyWire.Step ShellInput.handle (ShellInput.Works cmds) s t)
    (h : s.Feeds cmds s₀) : t.Feeds cmds s₀ := by
  cases hstep with
  | type | fill | line => exact ⟨h.run, h.codes, h.full⟩
  | write | ready | setIf | eoi | eoiAgain | iret =>
    refine ⟨h.run, h.codes, fun status hduty => ?_⟩
    cases hduty
  | work hduty hwork =>
    exact ⟨h.run.tail hwork.1, hwork.2.trans h.codes, h.full⟩
  | interrupt hduty hint =>
    refine ⟨h.run, h.codes, fun status hread => ?_⟩
    change (if s.pics.acknowledge.1 = 0x21 then Duty.readStatus else .astray _) = _ at hread
    split at hread <;> cases hread
  | full hduty hs hout =>
    refine ⟨h.run, h.codes, fun status hread => ?_⟩
    cases hread
    exact hs
  | empty hduty hs hout scancode =>
    obtain ⟨hrun, hcodes⟩ := h.handle hs scancode
    refine ⟨hrun, hcodes.trans h.codes, fun status hread => ?_⟩
    cases hread
  | @data _ status hduty stale =>
    have hs := h.full status hduty
    have hhandle : s.kernel.handle status (s.output.getD stale) =
        s.kernel.interrupt status (s.output.getD stale) := if_pos hs
    refine ⟨?_, ?_, fun status hread => ?_⟩
    · dsimp only [readPort]
      rw [hhandle]
      exact h.run.tail (.interrupt hs _)
    · dsimp only [readPort]
      rw [hhandle, ShellInput.interrupt_codes, h.codes, List.append_assoc]
    · cases hread

theorem KeyWire.Reachable.feeds
    (hr : KeyWire.Reachable ShellInput.handle (ShellInput.Works cmds) s t)
    (h : s.Feeds cmds s₀) : t.Feeds cmds s₀ := by
  induction hr with
  | refl => exact h
  | tail _ hstep ih => exact hstep.feeds ih

variable {k : Keyboard} {shell : Shell ω}

/-- From the keyboard to the shell: whatever the other devices do and however the controllers were
left, the processor gets no vector but that of the keyboard, each scan code is read once and in its
order, and the shell works on the keys that the codes stand for. -/
theorem wired_keys_reach_shell (queue : List UInt8) (output : Option UInt8) (p : Pair)
    (hline : p.master.line 1 = output.isSome) (hb : KeyBuffer.Filled k.buffer)
    (hempty : k.buffer.contents = [])
    (hr : KeyWire.Reachable ShellInput.handle (ShellInput.Works cmds)
      (.start queue output p (.start k shell)) s) :
    (∀ v ∈ s.vectors, v = 0x21) ∧
      s.kernel.codes ++ s.output.toList ++ s.queue = s.sent ∧
      s.kernel.shell = s.kernel.taken.foldl (Shell.key cmds) shell ∧
      (s.kernel.taken ++ s.kernel.inHand ++ s.kernel.keyboard.buffer.contents).Sublist
        (k.decoded s.kernel.codes) ∧
      (s.kernel.lost = false →
        s.kernel.taken ++ s.kernel.inHand ++ s.kernel.keyboard.buffer.contents =
          k.decoded s.kernel.codes) ∧
      (s.kernel.lost = true → 127 < (k.decoded s.kernel.codes).length) := by
  have hs := KeyWire.Reachable.sound hr (KeyWire.start_sound queue (ShellInput.start k shell) hline)
  have hstart : (KeyWire.start queue output p (ShellInput.start k shell)).Feeds cmds
      (.start k shell) := by
    refine ⟨.refl, rfl, fun status hduty => ?_⟩
    cases hduty
  have hfeeds := KeyWire.Reachable.feeds hr hstart
  have hshell := ShellInput.Reachable.sound hfeeds.run hb hempty
  have hcodes : s.kernel.codes = s.received := hfeeds.codes
  refine ⟨hs.vectors, ?_, hshell.shell, ?_, fun hlost => ?_, hshell.full⟩
  · rw [hcodes]
    exact hs.codes
  · rw [← hshell.fifo]
    exact hshell.decoded
  · rw [← hshell.fifo]
    exact hshell.complete hlost

end

/-- The controllers as a BIOS leaves them. -/
def biosPics (keyboardLine : Bool) : Pair :=
  let regs (base : UInt8) : Registers := ⟨.ready, base, 0, false, false, fun _ => false⟩
  let quiet : Nat → Bool := fun _ => false
  ⟨⟨regs 8, fun i => i == 1 && keyboardLine, quiet⟩, ⟨regs 0x70, quiet, quiet⟩⟩

/-- A code in the output buffer blocks the keyboard, and one that comes later does not. -/
theorem keyboard_alive_iff_code :
    (∀ s, KeyWire.Reachable keyboardHandler Eq
      (.start [] (some 0x1E) (biosPics true) Machine.boot.keyboard) s → s.received = []) ∧
    ∃ t, KeyWire.Reachable keyboardHandler Eq
      (.start [0x1E] none (biosPics false) Machine.boot.keyboard) t ∧ t.received = [0x1E] := by
  refine ⟨fun s hr => ?_, ?_⟩
  · have hstuck := keyboard_alive_iff keyboardHandler Eq [] (some 0x1E) (biosPics true)
      Machine.boot.keyboard (by decide)
    exact (hstuck.2 (by decide) s hr).2
  · have halive := (keyboard_alive_iff keyboardHandler Eq [0x1E] none (biosPics false)
      Machine.boot.keyboard (by decide)).1.2 rfl
    obtain ⟨t, hrun, -, hreceived⟩ := (halive _ .refl).2
    exact ⟨t, hrun, hreceived⟩

/-- An `a` from the keyboard. -/
theorem wired_keys_reach_shell_letter :
    ∃ s, KeyWire.Reachable ShellInput.handle (ShellInput.Works idleCommands)
        (.start [0x1E] none (biosPics false)
          (.start Machine.boot.keyboard (Shell.boot ()))) s ∧ s.kernel.codes = [0x1E] ∧
      s.kernel.taken ++ s.kernel.inHand ++ s.kernel.keyboard.buffer.contents = [97] := by
  let s₀ : KeyWire (ShellInput Unit) :=
    .start [0x1E] none (biosPics false) (.start Machine.boot.keyboard (Shell.boot ()))
  have hs₀ : s₀.Sound (biosPics false).master.regs := KeyWire.start_sound _ _ (by decide)
  obtain ⟨t, ht⟩ : ∃ t, KeyWire.Returns ShellInput.handle (ShellInput.Works idleCommands) s₀ t :=
    hs₀.returns
  have hheard : t.Heard := KeyWire.Reachable.heard ht.run hs₀ fun hout => Bool.noConfusion hout
  obtain ⟨u, hu, hsent, hout, hqueue⟩ :=
    hheard.drains t.queue (KeyWire.Reachable.sound ht.run hs₀) ht.duty rfl
  have hrun := ht.run.trans hu
  obtain ⟨-, hall, -, -, hcomplete, hfull⟩ :=
    wired_keys_reach_shell [0x1E] none (biosPics false) (by decide) boot_keyboard_filled (by decide)
      hrun
  rw [hout, hqueue, hsent, ht.sent, Option.toList_none, List.append_nil, List.append_nil] at hall
  have hcodes : u.kernel.codes = [0x1E] := hall
  have hkept : u.kernel.lost = false := by
    refine Bool.eq_false_iff.2 fun hlost => ?_
    have hlong := hfull hlost
    rw [hcodes] at hlong
    exact absurd hlong (by decide)
  refine ⟨u, hrun, hcodes, (hcomplete hkept).trans ?_⟩
  rw [hcodes]
  decide

end KernelCustom
