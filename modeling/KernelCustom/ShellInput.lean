import KernelCustom.KeyQueue
import KernelCustom.KeyStream
import KernelCustom.LineEditing

namespace KernelCustom
open RingBuffer LineEditor
set_option autoImplicit true

/-- The kernel shell and the keyboard driver: where `keyboard_buffer_pop` is between its reads and
writes, the scan codes that came, the keys that found room in the buffer and those that
`shell_loop` has worked on, and whether a key was lost. -/
structure ShellInput (ω : Type) where
  keyboard : Keyboard
  pc : PopPc
  shell : Shell ω
  codes : List UInt8
  accepted : List UInt8
  taken : List UInt8
  lost : Bool

section
variable {ω : Type}

/-- Notes what becomes of the key that the handler pushes. -/
def ShellInput.note (s : ShellInput ω) (c : UInt8) : ShellInput ω :=
  if s.keyboard.buffer.contents.length < 127 then { s with accepted := s.accepted ++ [c] }
  else { s with lost := true }

/-- The keyboard interrupt brings a scan code. -/
def ShellInput.interrupt (s : ShellInput ω) (status code : UInt8) : ShellInput ω :=
  let t := (s.keyboard.pushed code).elim s s.note
  { t with keyboard := keyboardHandler s.keyboard status code, codes := s.codes ++ [code] }

/-- One step: the interrupt may come between any two reads and writes of `keyboard_buffer_pop`, and
also while the shell waits or works on a key. -/
inductive ShellInput.Step (cmds : ShellCommands ω) : ShellInput ω → ShellInput ω → Prop
  | interrupt (hs : status &&& 1 ≠ 0) (code : UInt8) : Step cmds s (s.interrupt status code)
  -- the handler finds no scan code
  | spurious (hs : ¬ status &&& 1 ≠ 0) (code : UInt8) :
      Step cmds s { s with keyboard := keyboardHandler s.keyboard status code }
  | pop (hstep : PopStep s.keyboard.buffer s.pc b pc') :
      Step cmds s { s with keyboard := { s.keyboard with buffer := b }, pc := pc' }
  -- no key: `hlt`
  | wait (hpc : s.pc = .ret 0) : Step cmds s { s with pc := .start }
  | key (hpc : s.pc = .ret c) (hc : c ≠ 0) :
      Step cmds s { s with pc := .start, shell := s.shell.key cmds c, taken := s.taken ++ [c] }

def ShellInput.start (k : Keyboard) (shell : Shell ω) : ShellInput ω :=
  ⟨k, .start, shell, [], [], [], false⟩

abbrev ShellInput.Reachable (cmds : ShellCommands ω) (k : Keyboard) (shell : Shell ω) :
    ShellInput ω → Prop :=
  Relation.ReflTransGen (ShellInput.Step cmds) (.start k shell)

/-- The key that has left the buffer for `shell_loop`. -/
def ShellInput.inHand (s : ShellInput ω) : List UInt8 := inCall (some (.shellLoop, s.pc))

/-- The shell has worked on the keys that came first, the next ones are in the buffer, and all are
characters that the scan codes stand for, in their order. -/
structure ShellInput.Sound (cmds : ShellCommands ω) (k : Keyboard) (shell : Shell ω)
    (s : ShellInput ω) : Prop where
  filled : KeyBuffer.Filled s.keyboard.buffer
  driver : s.keyboard.emptied = (k.after s.codes).emptied
  fifo : s.accepted = s.taken ++ s.inHand ++ s.keyboard.buffer.contents
  decoded : s.accepted.Sublist (k.decoded s.codes)
  complete : s.lost = false → s.accepted = k.decoded s.codes
  full : s.lost = true → 127 < (k.decoded s.codes).length
  shell : s.shell = s.taken.foldl (Shell.key cmds) shell
  pc : s.pc.Sound s.keyboard.buffer true

variable {cmds : ShellCommands ω} {k : Keyboard} {shell : Shell ω} {s s' : ShellInput ω}

theorem ShellInput.start_sound (h : KeyBuffer.Filled k.buffer) (hempty : k.buffer.contents = []) :
    (start k shell).Sound cmds k shell where
  filled := h
  driver := rfl
  fifo := hempty.symm
  decoded := List.Sublist.refl []
  complete _ := rfl
  full hl := by cases hl
  shell := rfl
  pc := trivial

/-- What a scan code is decoded to depends on the codes before it only. -/
theorem ShellInput.Sound.pushed (h : s.Sound cmds k shell) (code : UInt8) :
    k.decoded (s.codes ++ [code]) = k.decoded s.codes ++ (s.keyboard.pushed code).toList := by
  have hsame := congrArg (fun k : Keyboard => k.pushed code) h.driver
  change s.keyboard.pushed code = (k.after s.codes).pushed code at hsame
  rw [Keyboard.decoded_concat, hsame]

theorem ShellInput.Sound.driver_interrupt (h : s.Sound cmds k shell) (hs : status &&& 1 ≠ 0)
    (code : UInt8) : (keyboardHandler s.keyboard status code).emptied =
      (k.after (s.codes ++ [code])).emptied := by
  rw [keyboardHandler_status _ hs, keyboardHandler_emptied, h.driver, ← keyboardHandler_emptied,
    Keyboard.after_append]
  rfl

/-- A scan code that gives no key. -/
theorem ShellInput.Sound.interrupt_none (h : s.Sound cmds k shell) (hs : status &&& 1 ≠ 0)
    (hpush : s.keyboard.pushed code = none) : (s.interrupt status code).Sound cmds k shell := by
  have hbuffer := s.keyboard.pushes_pushed code status s.keyboard.buffer hs
  have hcodes := h.pushed code
  rw [hpush] at hbuffer hcodes
  rw [Option.toList_none, List.append_nil] at hcodes
  change (keyboardHandler s.keyboard status code).buffer = s.keyboard.buffer at hbuffer
  have hstate : s.interrupt status code = { s with
      keyboard := keyboardHandler s.keyboard status code, codes := s.codes ++ [code] } := by
    rw [interrupt, hpush]
    rfl
  rw [hstate]
  refine ⟨h.filled.handler status code, h.driver_interrupt hs code, ?_, ?_, ?_, ?_, h.shell, ?_⟩
  · dsimp only
    rw [hbuffer]
    exact h.fifo
  · dsimp only
    rw [hcodes]
    exact h.decoded
  · dsimp only
    rw [hcodes]
    exact h.complete
  · dsimp only
    rw [hcodes]
    exact h.full
  · dsimp only
    rw [hbuffer]
    exact h.pc

/-- A scan code that gives a key. -/
theorem ShellInput.Sound.interrupt_some (h : s.Sound cmds k shell) (hs : status &&& 1 ≠ 0)
    (hpush : s.keyboard.pushed code = some c) : (s.interrupt status code).Sound cmds k shell := by
  have hbuffer := s.keyboard.pushes_pushed code status s.keyboard.buffer hs
  have hcodes := h.pushed code
  have hroom := h.filled.valid.room_iff
  rw [hpush] at hbuffer hcodes
  change (keyboardHandler s.keyboard status code).buffer = s.keyboard.buffer.push c at hbuffer
  have hlength : s.keyboard.buffer.contents.length ≤ (k.decoded s.codes).length := by
    refine Nat.le_trans ?_ h.decoded.length_le
    rw [h.fifo, List.length_append]
    exact Nat.le_add_left _ _
  have hstate : s.interrupt status code = { s.note c with
      keyboard := keyboardHandler s.keyboard status code, codes := s.codes ++ [code] } := by
    rw [interrupt, hpush]
    rfl
  rw [hstate]
  by_cases hlt : s.keyboard.buffer.contents.length < 127
  · have hcontents := h.filled.valid.contents_push_of_room (hroom.2 hlt) c
    have htail : (s.keyboard.buffer.push c).tail = s.keyboard.buffer.tail := by
      rw [Ring.push, if_pos (hroom.2 hlt)]
    rw [note, if_pos hlt]
    refine ⟨h.filled.handler status code, h.driver_interrupt hs code, ?_, ?_, fun hl => ?_,
      fun hl => ?_, h.shell, ?_⟩
    · dsimp only
      rw [hbuffer, hcontents, h.fifo, List.append_assoc]
      rfl
    · dsimp only
      rw [hcodes]
      exact h.decoded.append (List.Sublist.refl _)
    · dsimp only
      rw [hcodes, h.complete hl]
      rfl
    · dsimp only
      rw [hcodes, List.length_append]
      exact Nat.lt_add_right _ (h.full hl)
    · dsimp only
      rw [hbuffer]
      exact h.pc.mono htail ⟨[c], hcontents.symm⟩ id
  · -- the buffer is full, and the key is lost
    have hsame : s.keyboard.buffer.push c = s.keyboard.buffer :=
      Ring.push_of_full (fun hne => hlt (hroom.1 hne)) c
    rw [hsame] at hbuffer
    rw [note, if_neg hlt]
    refine ⟨h.filled.handler status code, h.driver_interrupt hs code, ?_, ?_, fun hl => ?_,
      fun hl => ?_, h.shell, ?_⟩
    · dsimp only
      rw [hbuffer]
      exact h.fifo
    · dsimp only
      rw [hcodes]
      exact h.decoded.trans (List.sublist_append_left _ _)
    · cases hl
    · dsimp only
      rw [hcodes, List.length_append, Option.toList_some, List.length_singleton]
      omega
    · dsimp only
      rw [hbuffer]
      exact h.pc

/-- A read, write or branch of `keyboard_buffer_pop`. -/
theorem ShellInput.Sound.pop (h : s.Sound cmds k shell)
    (hstep : PopStep s.keyboard.buffer s.pc b pc') :
    ShellInput.Sound cmds k shell
      { s with keyboard := { s.keyboard with buffer := b }, pc := pc' } := by
  by_cases hpc : ∀ c t, s.pc ≠ .store c t
  · have hb := hstep.buffer_eq hpc
    subst hb
    have hhand := hstep.inCall_eq hpc .shellLoop
    refine ⟨h.filled, h.driver, ?_, h.decoded, h.complete, h.full, h.shell,
      hstep.sound h.filled h.pc fun _ => rfl⟩
    change s.accepted = s.taken ++ inCall (some (.shellLoop, pc')) ++ _
    rw [hhand]
    exact h.fifo
  · simp only [not_forall, not_not] at hpc
    obtain ⟨c, t, hpc⟩ := hpc
    have hsound := h.pc
    have hfifo := h.fifo
    rw [inHand] at hfifo
    rw [hpc] at hstep hsound hfifo
    obtain ⟨hfilled, hcons, rfl⟩ := hstep.take h.filled hsound
    have hc : c ≠ 0 := by
      rintro rfl
      exact h.filled.nonzero (hcons ▸ List.mem_cons_self)
    refine ⟨hfilled, h.driver, ?_, h.decoded, h.complete, h.full, h.shell, fun hz => absurd hz hc⟩
    have hhand : inCall (some (.shellLoop, .ret c)) = [c] := if_neg hc
    change s.accepted = s.taken ++ inCall (some (.shellLoop, .ret c)) ++ b.contents
    rw [hfifo, hcons, hhand, List.append_assoc, List.append_assoc]
    rfl

theorem ShellInput.Step.sound (hstep : ShellInput.Step cmds s s') (h : s.Sound cmds k shell) :
    s'.Sound cmds k shell := by
  cases hstep with
  | interrupt hs code =>
    cases hpush : s.keyboard.pushed code with
    | none => exact h.interrupt_none hs hpush
    | some c => exact h.interrupt_some hs hpush
  | spurious hs code =>
    rw [keyboardHandler, if_neg hs]
    exact h
  | pop hstep => exact h.pop hstep
  | wait hpc =>
    have hfifo := h.fifo
    rw [inHand, hpc] at hfifo
    exact ⟨h.filled, h.driver, hfifo, h.decoded, h.complete, h.full, h.shell, trivial⟩
  | @key c _ hpc hc =>
    have hfifo := h.fifo
    have hhand : inCall (some (.shellLoop, .ret c)) = [c] := if_neg hc
    rw [inHand, hpc, hhand] at hfifo
    refine ⟨h.filled, h.driver, ?_, h.decoded, h.complete, h.full, ?_, trivial⟩
    · change s.accepted = s.taken ++ [c] ++ [] ++ s.keyboard.buffer.contents
      rw [List.append_nil]
      exact hfifo
    · dsimp only
      rw [h.shell, List.foldl_concat]

theorem ShellInput.Reachable.sound (hr : ShellInput.Reachable cmds k shell s)
    (h : KeyBuffer.Filled k.buffer) (hempty : k.buffer.contents = []) :
    s.Sound cmds k shell := by
  induction hr with
  | refl => exact start_sound h hempty
  | tail _ hstep ih => exact hstep.sound ih

/-- However the interrupts fall, the shell has worked on the decoded keys in the order in which
they were typed, each once; the next ones are in the buffer. None is missing unless 127 keys
waited when it came. -/
theorem typed_keys_reach_shell (hr : ShellInput.Reachable cmds k shell s)
    (h : KeyBuffer.Filled k.buffer) (hempty : k.buffer.contents = []) :
    s.shell = s.taken.foldl (Shell.key cmds) shell ∧
      (s.taken ++ s.inHand ++ s.keyboard.buffer.contents).Sublist (k.decoded s.codes) ∧
      (s.lost = false →
        s.taken ++ s.inHand ++ s.keyboard.buffer.contents = k.decoded s.codes) ∧
      (s.lost = true → 127 < (k.decoded s.codes).length) := by
  have hs := hr.sound h hempty
  refine ⟨hs.shell, ?_, fun hl => ?_, hs.full⟩
  · rw [← hs.fifo]
    exact hs.decoded
  · rw [← hs.fifo]
    exact hs.complete hl

/-- The keys of a text. -/
def textKeys (text : List Printable) : List (Key Printable) := text.map .char

theorem map_keyByte_textKeys (text : List Printable) :
    (textKeys text).map keyByte = chars text := by
  rw [textKeys, List.map_map]
  rfl

/-- Characters typed at the end of a line stay there, as many as fit. -/
theorem typed_textKeys (text : List Printable) (e : Line) (h : e.cursor = e.text.length) :
    ((textKeys text).foldl Editor.key e).text = (e.text ++ text).take 255 ∧
      ((textKeys text).foldl Editor.key e).cursor =
        ((textKeys text).foldl Editor.key e).text.length := by
  have hcap := e.length_le
  induction text generalizing e with
  | nil =>
    rw [List.append_nil, List.take_of_length_le hcap]
    exact ⟨rfl, h⟩
  | cons c text ih =>
    have hstep : (textKeys (c :: text)).foldl Editor.key e =
        (textKeys text).foldl Editor.key (e.insert c) := rfl
    rw [hstep]
    by_cases hroom : e.text.length < 255
    · have htext : (e.insert c).text = e.text ++ [c] := by
        rw [Editor.insert, dif_pos hroom]
        dsimp only
        rw [h, List.insertIdx_length_self]
      have hcursor : (e.insert c).cursor = (e.insert c).text.length := by
        rw [htext, Editor.insert, dif_pos hroom, List.length_append]
        exact congrArg (· + 1) h
      obtain ⟨hgo, hend⟩ := ih (e.insert c) hcursor (e.insert c).length_le
      rw [htext, List.append_assoc] at hgo
      exact ⟨hgo, hend⟩
    · have hfull : e.insert c = e := by rw [Editor.insert, dif_neg hroom]
      have hlength : e.text.length = 255 := by omega
      rw [hfull]
      obtain ⟨hgo, hend⟩ := ih e h hcap
      refine ⟨hgo.trans ?_, hend⟩
      rw [List.take_left' hlength, List.take_left' hlength]

section
variable {ω : Type} {cmds : ShellCommands ω} {k : Keyboard}
  {shell : Shell (ω × List (List UInt8))} {s : ShellInput (ω × List (List UInt8))}

/-- A text that is typed and entered at an empty line reaches `handle_command`, whatever the
interrupts interrupt: with nothing more than the scan codes of its characters and of Enter, and no
key left, the shell has run just this text, cut off at 255 characters. -/
theorem typed_text_runs (text : List Printable) (htext : ∀ c ∈ text, c.1 ≤ 126)
    (hr : ShellInput.Reachable cmds.recording k shell s) (hk : k.AtRest)
    (h : KeyBuffer.Filled k.buffer) (hempty : k.buffer.contents = []) (hpos : shell.pos = 0)
    (hlen : shell.len = 0) (hcodes : s.codes = strokes (chars text) ++ stroke 10)
    (hlost : s.lost = false ∨ text.length < 127)
    (hdone : s.inHand ++ s.keyboard.buffer.contents = []) :
    s.shell.world.2 = shell.world.2 ++ [chars (text.take 255)] := by
  have hsound := hr.sound h hempty
  have htypeable : ∀ c ∈ chars text, Typeable c := by
    intro c hc
    obtain ⟨p, hp, rfl⟩ := List.mem_map.1 hc
    exact typeable_of_printable p.2.1 (htext p hp)
  obtain ⟨hdecoded, hrest⟩ := hk.strokes htypeable
  have hkeys : k.decoded s.codes = chars text ++ [10] := by
    rw [hcodes, Keyboard.decoded_append, hdecoded, (hrest.stroke (by decide)).1]
  have hno : s.lost = false := by
    refine hlost.elim id fun hshort => Bool.eq_false_iff.2 fun hl => ?_
    have hlong := hsound.full hl
    rw [hkeys, List.length_append, chars, List.length_map, List.length_singleton] at hlong
    omega
  have htaken : s.taken = chars text ++ [10] := by
    have heq := hsound.complete hno
    rwa [hsound.fifo, List.append_assoc, hdone, List.append_nil, hkeys] at heq
  have hline : shell.Holds (.empty : Line) :=
    ⟨hpos, hlen, fun i hi => absurd hi (Nat.not_lt_zero i)⟩
  obtain ⟨htyped, hcursor⟩ := typed_textKeys text .empty rfl
  have hpassed := hline.line_passed cmds (textKeys text)
  rw [hcursor, List.take_length, htyped] at hpassed
  rw [hsound.shell, htaken, List.foldl_append, ← map_keyByte_textKeys]
  exact hpassed

end

/-- A run of `keyboard_buffer_pop` without an interrupt, and the shell's work on the key. -/
theorem ShellInput.takes_key (cmds : ShellCommands ω) (hpc : s.pc = .start)
    (hne : s.keyboard.buffer.head ≠ s.keyboard.buffer.tail)
    (hc : s.keyboard.buffer.slot s.keyboard.buffer.tail ≠ 0) :
    ∃ s', Relation.ReflTransGen (ShellInput.Step cmds) s s' ∧ s'.pc = .start ∧
      s'.codes = s.codes ∧ s'.lost = s.lost ∧ s'.keyboard.buffer =
        { s.keyboard.buffer with tail := (s.keyboard.buffer.tail + 1) % 128 } := by
  obtain ⟨⟨l, r, lc, rc, la, ra, e, down, b⟩, pc, shell, codes, accepted, taken, lost⟩ := s
  change pc = .start at hpc
  subst hpc
  have h₁ : Relation.ReflTransGen (ShellInput.Step cmds)
      ⟨⟨l, r, lc, rc, la, ra, e, down, b⟩, .start, shell, codes, accepted, taken, lost⟩ _ :=
    .single (.pop .headFirst)
  have h₂ := h₁.tail (.pop .tailSecond)
  have h₃ := h₂.tail (.pop (.nonempty hne))
  have h₄ := h₃.tail (.pop .readTail)
  have h₅ := h₄.tail (.pop .readSlot)
  have h₆ := h₅.tail (.pop .readTailAgain)
  have h₇ := h₆.tail (.pop .writeTail)
  exact ⟨_, h₇.tail (.key rfl hc), rfl, rfl, rfl, rfl⟩

/-- Without further interrupts the shell works on every key that waits. -/
theorem ShellInput.takes_all (cmds : ShellCommands ω) (hb : KeyBuffer.Filled s.keyboard.buffer)
    (hpc : s.pc = .start) :
    ∃ s', Relation.ReflTransGen (ShellInput.Step cmds) s s' ∧ s'.codes = s.codes ∧
      s'.lost = s.lost ∧ s'.inHand ++ s'.keyboard.buffer.contents = [] := by
  induction hn : s.keyboard.buffer.contents generalizing s with
  | nil =>
    have hhand : s.inHand = [] := by
      rw [inHand, hpc]
      rfl
    exact ⟨s, .refl, rfl, rfl, by rw [hhand, hn]; rfl⟩
  | cons c rest ih =>
    have hne : s.keyboard.buffer.contents ≠ [] := by
      rw [hn]
      exact List.cons_ne_nil c rest
    have hcons := hb.valid.contents_cons hne
    have hslot : s.keyboard.buffer.slot s.keyboard.buffer.tail ≠ 0 := by
      intro hz
      refine hb.nonzero ?_
      rw [hcons, hz]
      exact List.mem_cons_self
    have hhead := fun he => hne (hb.valid.contents_eq_nil_iff.2 he)
    obtain ⟨s₁, hrun, hpc₁, hcodes₁, hlost₁, hbuffer⟩ := takes_key cmds hpc hhead hslot
    rw [hn] at hcons
    have hrest := (List.cons.inj hcons).2
    have hb₁ : KeyBuffer.Filled s₁.keyboard.buffer := by
      rw [hbuffer]
      refine ⟨⟨hb.valid.1, Nat.mod_lt _ (by decide)⟩, fun hm => hb.nonzero ?_⟩
      rw [hn]
      exact List.mem_cons_of_mem _ (hrest ▸ hm)
    obtain ⟨s', hrun', hcodes, hlost, hdone⟩ := ih hb₁ hpc₁ (by rw [hbuffer, ← hrest])
    exact ⟨s', hrun.trans hrun', hcodes.trans hcodes₁, hlost.trans hlost₁, hdone⟩

end

theorem ShellInput.interrupt_pc {ω : Type} (s : ShellInput ω) (status code : UInt8) :
    (s.interrupt status code).pc = s.pc := by
  rw [interrupt]
  cases s.keyboard.pushed code with
  | none => rfl
  | some c =>
    change (s.note c).pc = s.pc
    rw [note]
    split <;> rfl

theorem ShellInput.interrupt_codes {ω : Type} (s : ShellInput ω) (status code : UInt8) :
    (s.interrupt status code).codes = s.codes ++ [code] := rfl

theorem boot_keyboard_filled : KeyBuffer.Filled Machine.boot.keyboard.buffer :=
  ⟨⟨by decide, by decide⟩, by decide⟩

/-- An `a` and a `b` that wait. -/
theorem typed_keys_reach_shell_waiting :
    ∃ s : ShellInput Unit,
      ShellInput.Reachable idleCommands Machine.boot.keyboard (Shell.boot ()) s ∧
        s.taken ++ s.inHand ++ s.keyboard.buffer.contents = [97, 98] := by
  have hrun : ∀ s : ShellInput Unit, ∀ code,
      ShellInput.Step idleCommands s (s.interrupt 1 code) :=
    fun s code => .interrupt (by decide) code
  have h₁ := Relation.ReflTransGen.single
    (hrun (ShellInput.start Machine.boot.keyboard (Shell.boot ())) 0x1E)
  have h₂ := h₁.tail (hrun _ 0x9E)
  have h₃ := h₂.tail (hrun _ 0x30)
  exact ⟨_, h₃, (typed_keys_reach_shell h₃ boot_keyboard_filled (by decide)).2.2.1 rfl⟩

/-- `a` and Enter. -/
theorem typed_text_runs_letter :
    ∃ s : ShellInput (Unit × List (List UInt8)),
      ShellInput.Reachable idleCommands.recording Machine.boot.keyboard
        ((Shell.boot ((), [])).enter idleCommands.recording) s ∧ s.shell.world.2 = [[97]] := by
  let boot := ShellInput.start Machine.boot.keyboard
    ((Shell.boot ((), ([] : List (List UInt8)))).enter idleCommands.recording)
  have hrun : ∀ s : ShellInput (Unit × List (List UInt8)), ∀ code,
      ShellInput.Step idleCommands.recording s (s.interrupt 1 code) :=
    fun s code => .interrupt (by decide) code
  have h₁ := Relation.ReflTransGen.single (hrun boot 0x1E)
  have h₂ := h₁.tail (hrun _ 0x9E)
  have h₃ := h₂.tail (hrun _ 0x1C)
  have h₄ := h₃.tail (hrun _ 0x9C)
  have hsound := ShellInput.Reachable.sound h₄ boot_keyboard_filled (by decide)
  have hkeys : strokes (chars [⟨97, by decide⟩]) ++ stroke 10 = [0x1E, 0x9E, 0x1C, 0x9C] := by
    decide
  have hpc : ((((boot.interrupt 1 0x1E).interrupt 1 0x9E).interrupt 1 0x1C).interrupt 1 0x9C).pc =
      .start := by
    simp only [ShellInput.interrupt_pc]
    rfl
  obtain ⟨s, hs, hcodes, hlost, hdone⟩ :=
    ShellInput.takes_all idleCommands.recording hsound.filled hpc
  have hascii : ∀ c ∈ [(⟨97, by decide⟩ : Printable)], c.1 ≤ 126 :=
    List.forall_mem_singleton.2 (by decide)
  exact ⟨s, h₄.trans hs, typed_text_runs [⟨97, by decide⟩] hascii (h₄.trans hs)
    Machine.boot_atRest boot_keyboard_filled (by decide) rfl rfl (hcodes.trans hkeys.symm)
    (.inr (by decide)) hdone⟩

end KernelCustom
