import KernelCustom.Keyboard
import Mathlib.Logic.Relation

namespace KernelCustom
open RingBuffer
set_option autoImplicit true

def sysExit : UInt32 := 3
def sysRead : UInt32 := 4
def sysReadRaw : UInt32 := 5

/-- The loops that take keys from the buffer. `SYS_READ` has stored some and wants `max_len`. -/
inductive Reader where
  | shellLoop
  | sysReadRaw
  | sysRead (stored : List UInt8) (maxLen : UInt32)
  deriving DecidableEq

/-- What the processor executes. -/
inductive Mode where
  /-- `_start` and `kmain`, up to its `sti`. -/
  | kmain
  | autoEnterUserMode
  /-- Before a call of `keyboard_buffer_pop`. -/
  | poll (r : Reader)
  /-- At the `hlt` behind a call that returned 0. -/
  | hlt (r : Reader)
  /-- `shell_loop` works on a key. -/
  | shellKey (c : UInt8)
  | user
  | keyboardHandler
  /-- `c_syscall_handler`, at its switch. -/
  | syscall (eax edx : UInt32)
  | exit
  /-- The end of `syscall_handler_asm`, with the result. -/
  | sysReturn (eax : UInt32)
  /-- The `cli; hlt` of `panic` and of the exception handlers. -/
  | halted
  deriving DecidableEq

/-- The interrupt flag, what the interrupted code will get back from the stack, and the driver. -/
structure Machine where
  ifFlag : Bool
  frames : List (Bool × Mode)
  mode : Mode
  keyboard : Keyboard

/-- The `flags` of the gates that `idt_init` sets. -/
def idtFlags (vector : Nat) : Nat :=
  if vector = 0x21 then 0x8E
  else if vector = 0x80 then 0xEE
  else if vector = 0x0E then 0x8E
  else if vector ∈ [0x00, 0x07, 0x08, 0x0A, 0x0B, 0x0C, 0x0D] then 0x8E
  else 0

def Machine.cli (m : Machine) : Machine := { m with ifFlag := false }

def Machine.sti (m : Machine) : Machine := { m with ifFlag := true }

def Machine.goto (m : Machine) (mode : Mode) : Machine := { m with mode }

/-- Entry through a gate of the IDT. The type of an interrupt gate is 0xE. -/
def Machine.gate (m : Machine) (vector : Nat) (handler : Mode) : Machine :=
  { m with
    ifFlag := m.ifFlag && idtFlags vector % 16 != 0xE
    frames := (m.ifFlag, m.mode) :: m.frames
    mode := handler }

def Machine.iret (m : Machine) : Machine :=
  match m.frames with
  | [] => m
  | (ifFlag, mode) :: frames => { m with ifFlag, mode, frames }

def Machine.syscallHandlerAsm (m : Machine) (eax edx : UInt32) : Machine :=
  (m.gate 0x80 (.syscall eax edx)).cli

/-- `asm_switch_to_user`. Its `iret` takes the flags from the 0x202 on the stack, and nothing
returns through what lies below that. -/
def Machine.asmSwitchToUser (m : Machine) : Machine :=
  { m.cli with frames := [(Nat.testBit 0x202 9, .user)] }.iret

def Machine.userExitReturnStub (m : Machine) : Machine :=
  ({ m with frames := [] }.sti).goto (.poll .shellLoop)

/-- `page_fault_handler` for a fault in user mode. It ends in `run_shell`. -/
def Machine.userPageFault (m : Machine) : Machine :=
  ({ (m.gate 0x0E .user).cli with frames := [] }.sti).goto (.poll .shellLoop)

/-- The head of the loop of `SYS_READ`. -/
def readNext (stored : List UInt8) (maxLen : UInt32) : Mode :=
  if stored.length < maxLen.toNat then .poll (.sysRead stored maxLen)
  else .sysReturn (.ofNat stored.length)

/-- What a loop does with a key. -/
def Reader.received : Reader → UInt8 → Mode
  | .shellLoop, c => .shellKey c
  | .sysReadRaw, c => .sysReturn c.toUInt32
  | .sysRead stored maxLen, c =>
    if c = 10 then .sysReturn (.ofNat (stored.length + 1)) else readNext (stored ++ [c]) maxLen

def Machine.poll (m : Machine) (r : Reader) : Machine :=
  let (c, buffer) := keyboardBufferPop m.keyboard.buffer
  { m with
    keyboard := { m.keyboard with buffer }
    mode := if c = 0 then .hlt r else r.received c }

/-- Where a program can be started: in `auto_enter_user_mode`, by a line of the kernel shell and
behind a `SYS_EXIT`. -/
def Mode.launches : Mode → Bool
  | .autoEnterUserMode => true
  | .shellKey c => c == 10
  | .exit => true
  | _ => false

/-- One step of the machine. `auto_enter_user_mode`, `task_create` and `schedule` are not part of
the repository: they use `run_shell`, `asm_switch_to_user` and `user_exit_return_stub` in every way
that the kernel leaves to them. -/
inductive Machine.Step : Machine → Machine → Prop
  | interrupt (hif : m.ifFlag = true) : Step m (m.gate 0x21 .keyboardHandler)
  -- the interrupt that ends a `hlt` returns behind it
  | wake (hif : m.ifFlag = true) (hmode : m.mode = .hlt r) :
      Step m ((m.goto (.poll r)).gate 0x21 .keyboardHandler)
  | keyboard (hmode : m.mode = .keyboardHandler) (status scancode : UInt8) :
      Step m { m with keyboard := keyboardHandler m.keyboard status scancode }.iret
  | enable (hmode : m.mode = .kmain) : Step m (m.sti.goto .autoEnterUserMode)
  | runShell (hmode : m.mode = .autoEnterUserMode) : Step m (m.goto (.poll .shellLoop))
  | switchToUser (hmode : m.mode.launches = true) : Step m m.asmSwitchToUser
  | poll (hmode : m.mode = .poll r) : Step m (m.poll r)
  | keyDone (hmode : m.mode = .shellKey c) : Step m (m.goto (.poll .shellLoop))
  | syscall (hmode : m.mode = .user) (eax edx : UInt32) : Step m (m.syscallHandlerAsm eax edx)
  | readRaw (hmode : m.mode = .syscall sysReadRaw edx) : Step m (m.goto (.poll .sysReadRaw))
  | read (hmode : m.mode = .syscall sysRead edx) : Step m (m.goto (readNext [] edx))
  | exit (hmode : m.mode = .syscall sysExit edx) : Step m (m.goto .exit)
  -- `SYS_WRITE`, `SYS_CLEAR` and the calls that do not exist
  | otherCall (hmode : m.mode = .syscall eax edx) (hne : eax ∉ [sysReadRaw, sysRead, sysExit])
      (result : UInt32) : Step m (m.goto (.sysReturn result))
  | sysReturn (hmode : m.mode = .sysReturn eax) : Step m m.iret
  | exitToShell (hmode : m.mode = .exit) : Step m m.userExitReturnStub
  | pageFault (hmode : m.mode = .user) : Step m m.userPageFault
  -- an exception, a page fault of the kernel or a panic
  | stop : Step m (m.goto .halted).cli

/-- The state that `_start` begins with. -/
def Machine.boot : Machine where
  ifFlag := false
  frames := []
  mode := .kmain
  keyboard := ⟨false, false, false, false, false, false, false, fun _ => false, ⟨0, 0, fun _ => 0⟩⟩

/-- The states that a run from the start reaches, while each state it goes on from has `P`. -/
inductive Machine.Reached (P : Machine → Prop) : Machine → Prop
  | boot : Reached P .boot
  | step (h : Reached P m) (hp : P m) (hs : m.Step m') : Reached P m'

/-- The code that runs with interrupts on. -/
def Mode.open : Mode → Bool
  | .autoEnterUserMode | .shellKey _ | .user => true
  | .poll r | .hlt r => r == .shellLoop
  | _ => false

/-- The code of a system call. -/
def Mode.inSyscall : Mode → Bool
  | .syscall _ _ | .exit | .sysReturn _ => true
  | .poll r | .hlt r => r != .shellLoop
  | _ => false

theorem Mode.open_of_inSyscall {mode : Mode} (h : mode.inSyscall = true) : mode.open = false := by
  cases mode with
  | syscall | exit | sysReturn => rfl
  | poll r | hlt r => exact beq_eq_false_iff_ne.2 (bne_iff_ne.1 h)
  | kmain | autoEnterUserMode | shellKey | user | keyboardHandler | halted => cases h

/-- How the interrupt flag and the stack go with what is executed. -/
structure Machine.Sound (m : Machine) : Prop where
  flag : m.ifFlag = m.mode.open
  starting : m.mode = .kmain → m.frames = []
  running : m.mode.open = true → m.frames = []
  called : m.mode.inSyscall = true → m.frames = [(true, .user)]
  interrupted : m.mode = .keyboardHandler → ∃ back : Mode, back.open = true ∧
    m.frames = [(true, back)]
  buffer : KeyBuffer.Filled m.keyboard.buffer

theorem Machine.Sound.of_open {m : Machine} (hopen : m.mode.open = true) (hif : m.ifFlag = true)
    (hframes : m.frames = []) (hb : KeyBuffer.Filled m.keyboard.buffer) : m.Sound := by
  refine ⟨hif.trans hopen.symm, fun _ => hframes, fun _ => hframes, fun h => ?_, fun h => ?_, hb⟩
  · rw [Mode.open_of_inSyscall h] at hopen
    cases hopen
  · rw [h] at hopen
    cases hopen

theorem Machine.Sound.of_call {m : Machine} (hcall : m.mode.inSyscall = true)
    (hif : m.ifFlag = false) (hframes : m.frames = [(true, .user)])
    (hb : KeyBuffer.Filled m.keyboard.buffer) : m.Sound := by
  refine ⟨hif.trans (Mode.open_of_inSyscall hcall).symm, fun h => ?_, fun h => ?_,
    fun _ => hframes, fun h => ?_, hb⟩
  · rw [h] at hcall
    cases hcall
  · rw [Mode.open_of_inSyscall hcall] at h
    cases h
  · rw [h] at hcall
    cases hcall

theorem Machine.Sound.flag_of_call {m : Machine} (h : m.Sound) (hcall : m.mode.inSyscall = true) :
    m.ifFlag = false := h.flag.trans (Mode.open_of_inSyscall hcall)

/-- The code with interrupts on goes on. -/
theorem Machine.Sound.goto_open {m : Machine} {mode : Mode} (h : m.Sound)
    (hopen : m.mode.open = true) (hto : mode.open = true) : (m.goto mode).Sound :=
  .of_open hto (h.flag.trans hopen) (h.running hopen) h.buffer

/-- A system call goes on. -/
theorem Machine.Sound.goto_call {m : Machine} {mode : Mode} (h : m.Sound)
    (hcall : m.mode.inSyscall = true) (hto : mode.inSyscall = true) : (m.goto mode).Sound :=
  .of_call hto (h.flag_of_call hcall) (h.called hcall) h.buffer

/-- The keyboard interrupt comes only to code with interrupts on. -/
theorem Machine.Sound.gate_keyboard {m : Machine} (h : m.Sound) (hif : m.ifFlag = true) :
    (m.gate 0x21 .keyboardHandler).Sound := by
  have hopen : m.mode.open = true := h.flag.symm.trans hif
  refine ⟨Bool.and_false _, nofun, nofun, nofun, fun _ => ⟨m.mode, hopen, ?_⟩, h.buffer⟩
  change (m.ifFlag, m.mode) :: m.frames = _
  rw [hif, h.running hopen]

/-- A program starts with interrupts on, wherever it is started from. -/
theorem Machine.Sound.switchToUser {m : Machine} (h : m.Sound) : m.asmSwitchToUser.Sound :=
  .of_open rfl rfl rfl h.buffer

theorem readNext_inSyscall (stored : List UInt8) (maxLen : UInt32) :
    (readNext stored maxLen).inSyscall = true := by
  rw [readNext]
  split
  · rfl
  · rfl

theorem Reader.received_inSyscall {r : Reader} (hr : r ≠ .shellLoop) (c : UInt8) :
    (r.received c).inSyscall = true := by
  cases r with
  | shellLoop => exact absurd rfl hr
  | sysReadRaw => rfl
  | sysRead stored maxLen =>
    rw [Reader.received]
    split
    · rfl
    · exact readNext_inSyscall _ _

/-- A loop stops at the `hlt` when there is no key, and else gets the oldest one. -/
theorem Machine.poll_cases {m : Machine} (h : KeyBuffer.Filled m.keyboard.buffer) (r : Reader) :
    KeyBuffer.Filled (m.poll r).keyboard.buffer ∧
      ((m.keyboard.buffer.contents = [] ∧ (m.poll r).mode = .hlt r) ∨
        ∃ c, (m.poll r).mode = r.received c ∧
          m.keyboard.buffer.contents = c :: (m.poll r).keyboard.buffer.contents) := by
  rcases h.pop with ⟨hnil, hp⟩ | ⟨hne, hrest, hcons⟩
  · rw [Machine.poll, hp]
    exact ⟨h, .inl ⟨hnil, rfl⟩⟩
  · exact ⟨hrest, .inr ⟨_, if_neg hne, hcons⟩⟩

theorem Machine.Sound.poll {m : Machine} (h : m.Sound) (hmode : m.mode = .poll r) :
    (m.poll r).Sound := by
  obtain ⟨hb, hcases⟩ := m.poll_cases h.buffer r
  by_cases hr : r = .shellLoop
  · subst hr
    have hopen : m.mode.open = true := by rw [hmode]; rfl
    refine .of_open ?_ (h.flag.trans hopen) (h.running hopen) hb
    rcases hcases with ⟨-, hm⟩ | ⟨c, hm, -⟩
    · rw [hm]
      rfl
    · rw [hm]
      rfl
  · have hcall : m.mode.inSyscall = true := by
      rw [hmode]
      exact bne_iff_ne.2 hr
    refine .of_call ?_ (h.flag_of_call hcall) (h.called hcall) hb
    rcases hcases with ⟨-, hm⟩ | ⟨c, hm, -⟩
    · rw [hm]
      exact bne_iff_ne.2 hr
    · rw [hm]
      exact r.received_inSyscall hr c

theorem Machine.Sound.keyboard {m : Machine} (h : m.Sound) (hmode : m.mode = .keyboardHandler)
    (status scancode : UInt8) :
    { m with keyboard := keyboardHandler m.keyboard status scancode }.iret.Sound := by
  obtain ⟨back, hopen, hframes⟩ := h.interrupted hmode
  rw [Machine.iret, hframes]
  exact .of_open hopen rfl rfl (h.buffer.handler status scancode)

theorem Machine.Sound.sysReturn {m : Machine} (h : m.Sound) (hmode : m.mode = .sysReturn eax) :
    m.iret.Sound := by
  have hframes := h.called (by rw [hmode]; rfl)
  rw [Machine.iret, hframes]
  exact .of_open rfl rfl rfl h.buffer

theorem Machine.Sound.syscall {m : Machine} (h : m.Sound) (hmode : m.mode = .user)
    (eax edx : UInt32) : (m.syscallHandlerAsm eax edx).Sound := by
  have hopen : m.mode.open = true := by rw [hmode]; rfl
  refine .of_call rfl rfl ?_ h.buffer
  change (m.ifFlag, m.mode) :: m.frames = _
  rw [h.running hopen, h.flag.trans hopen, hmode]

theorem Machine.Step.sound {m m' : Machine} (hs : m.Step m') (h : m.Sound) : m'.Sound := by
  cases hs with
  | interrupt hif => exact h.gate_keyboard hif
  | @wake _ r hif hmode =>
    have hopen : m.mode.open = true := h.flag.symm.trans hif
    have hback : (Mode.poll r).open = true := by
      rw [hmode] at hopen
      exact hopen
    exact (h.goto_open hopen hback).gate_keyboard hif
  | keyboard hmode status scancode => exact h.keyboard hmode status scancode
  | enable hmode => exact .of_open rfl rfl (h.starting hmode) h.buffer
  | runShell hmode => exact h.goto_open (by rw [hmode]; rfl) rfl
  | switchToUser => exact h.switchToUser
  | poll hmode => exact h.poll hmode
  | keyDone hmode => exact h.goto_open (by rw [hmode]; rfl) rfl
  | syscall hmode eax edx => exact h.syscall hmode eax edx
  | readRaw hmode => exact h.goto_call (by rw [hmode]; rfl) rfl
  | read hmode => exact h.goto_call (by rw [hmode]; rfl) (readNext_inSyscall _ _)
  | exit hmode => exact h.goto_call (by rw [hmode]; rfl) rfl
  | otherCall hmode _ result => exact h.goto_call (by rw [hmode]; rfl) rfl
  | sysReturn hmode => exact h.sysReturn hmode
  | exitToShell => exact .of_open rfl rfl rfl h.buffer
  | pageFault => exact .of_open rfl rfl rfl h.buffer
  | stop => exact ⟨rfl, nofun, nofun, nofun, nofun, h.buffer⟩

theorem Machine.Reached.sound (h : Machine.Reached P m) : m.Sound := by
  induction h with
  | boot => exact ⟨rfl, fun _ => rfl, nofun, nofun, nofun, ⟨⟨by decide, by decide⟩, by decide⟩⟩
  | step _ _ hs ih => exact hs.sound ih

/-- The keys are there that a call of `SYS_READ_RAW` or `SYS_READ` waits for: one key, or `max_len`
keys, or a newline among the first `max_len`. -/
def Machine.KeysReady (m : Machine) : Prop :=
  ∀ eax edx, m.mode = .syscall eax edx →
    (eax = sysReadRaw → m.keyboard.buffer.contents ≠ []) ∧
    (eax = sysRead → 10 ∈ m.keyboard.buffer.contents.take edx.toNat ∨
      edx.toNat ≤ m.keyboard.buffer.contents.length)

/-- The keys that a loop of a system call still waits for are there. -/
def Reader.Fed (keys : List UInt8) : Reader → Prop
  | .shellLoop => True
  | .sysReadRaw => keys ≠ []
  | .sysRead stored maxLen => stored.length < maxLen.toNat ∧
      (10 ∈ keys.take (maxLen.toNat - stored.length) ∨
        maxLen.toNat ≤ stored.length + keys.length)

/-- No system call waits at a `hlt`, and none will. -/
def Mode.Fed (keys : List UInt8) : Mode → Prop
  | .poll r => r.Fed keys
  | .hlt r => r = .shellLoop
  | _ => True

theorem Mode.Fed.of_open {mode : Mode} (h : mode.open = true) (keys : List UInt8) :
    mode.Fed keys := by
  cases mode with
  | poll r =>
    rw [eq_of_beq h]
    exact True.intro
  | hlt r => exact eq_of_beq h
  | autoEnterUserMode | shellKey | user => exact True.intro
  | kmain | keyboardHandler | syscall | exit | sysReturn | halted => cases h

theorem readNext_fed (h : 10 ∈ keys.take (maxLen.toNat - stored.length) ∨
    maxLen.toNat ≤ stored.length + keys.length) : (readNext stored maxLen).Fed keys := by
  rw [readNext]
  split
  · next hlt => exact ⟨hlt, h⟩
  · exact True.intro

/-- A loop that gets a key has one key less to wait for. -/
theorem Reader.Fed.received {r : Reader} (h : r.Fed (c :: keys)) : (r.received c).Fed keys := by
  cases r with
  | shellLoop | sysReadRaw => exact True.intro
  | sysRead stored maxLen =>
    obtain ⟨hlt, h⟩ := h
    rw [Reader.received]
    split
    · exact True.intro
    · next hc =>
      apply readNext_fed
      rw [List.length_append, List.length_singleton]
      rcases h with h | h
      · left
        have hsucc : maxLen.toNat - stored.length = maxLen.toNat - (stored.length + 1) + 1 := by
          omega
        rw [hsucc, List.take_succ_cons] at h
        rcases List.mem_cons.1 h with heq | h
        · exact absurd heq.symm hc
        · exact h
      · right
        rw [List.length_cons] at h
        omega

theorem Reader.Fed.eq_shellLoop {r : Reader} (h : r.Fed []) : r = .shellLoop := by
  cases r with
  | shellLoop => rfl
  | sysReadRaw => exact absurd rfl h
  | sysRead stored maxLen =>
    obtain ⟨hlt, h | h⟩ := h
    · rw [List.take_nil] at h
      cases h
    · rw [List.length_nil] at h
      omega

theorem Machine.poll_fed {m : Machine} (hb : KeyBuffer.Filled m.keyboard.buffer)
    (h : r.Fed m.keyboard.buffer.contents) :
    (m.poll r).mode.Fed (m.poll r).keyboard.buffer.contents := by
  rcases (m.poll_cases hb r).2 with ⟨hnil, hm⟩ | ⟨c, hm, hcons⟩
  · rw [hnil] at h
    rw [hm]
    exact h.eq_shellLoop
  · rw [hcons] at h
    rw [hm]
    exact h.received

theorem Machine.Step.fed {m m' : Machine} (hs : m.Step m') (hsound : m.Sound)
    (hready : m.KeysReady) (h : m.mode.Fed m.keyboard.buffer.contents) :
    m'.mode.Fed m'.keyboard.buffer.contents := by
  cases hs with
  | interrupt | wake | syscall | exit | otherCall | stop => exact True.intro
  | keyboard hmode status scancode =>
    obtain ⟨back, hopen, hframes⟩ := hsound.interrupted hmode
    rw [Machine.iret, hframes]
    exact .of_open hopen _
  | enable | runShell | switchToUser | keyDone | exitToShell | pageFault => exact .of_open rfl _
  | poll hmode =>
    rw [hmode] at h
    exact m.poll_fed hsound.buffer h
  | readRaw hmode => exact (hready _ _ hmode).1 rfl
  | read hmode =>
    apply readNext_fed
    rw [List.length_nil, Nat.sub_zero, Nat.zero_add]
    exact (hready _ _ hmode).2 rfl
  | sysReturn hmode =>
    rw [Machine.iret, hsound.called (by rw [hmode]; rfl)]
    exact .of_open rfl _

theorem Machine.Reached.fed (h : Machine.Reached Machine.KeysReady m) :
    m.mode.Fed m.keyboard.buffer.contents := by
  induction h with
  | boot => exact True.intro
  | step hrun hready hs ih => exact hs.fed hrun.sound hready ih

/-- Steps of the machine lead to the `hlt` of a loop with interrupts off. -/
def Machine.GetsStuck (m : Machine) : Prop :=
  ∃ n, Relation.ReflTransGen Machine.Step m n ∧ ∃ r, n.mode = .hlt r ∧ n.ifFlag = false

theorem Machine.GetsStuck.head {m m' : Machine} (hs : m.Step m') (h : m'.GetsStuck) :
    m.GetsStuck := by
  obtain ⟨n, hsteps, hn⟩ := h
  exact ⟨n, .head hs hsteps, hn⟩

theorem Machine.poll_stuck {m : Machine} (h : m.Sound) (hmode : m.mode = .poll r)
    (hr : r ≠ .shellLoop) (hnil : m.keyboard.buffer.contents = []) : m.GetsStuck := by
  have hcall : m.mode.inSyscall = true := by
    rw [hmode]
    exact bne_iff_ne.2 hr
  rcases (m.poll_cases h.buffer r).2 with ⟨-, hm⟩ | ⟨c, -, hcons⟩
  · exact ⟨m.poll r, .single (.poll hmode), r, hm, h.flag_of_call hcall⟩
  · rw [hnil] at hcons
    cases hcons

/-- `SYS_READ` uses up the keys when they are too few and have no newline. -/
theorem Machine.read_stuck {m : Machine} (hkeys : m.keyboard.buffer.contents = keys)
    (h : m.Sound) (hmode : m.mode = .poll (.sysRead stored maxLen))
    (hlt : stored.length + keys.length < maxLen.toNat) (hnl : 10 ∉ keys) :
    m.GetsStuck := by
  -- the loop takes one key at a time, so the induction is on the keys that are there
  induction keys generalizing m stored with
  | nil => exact m.poll_stuck h hmode nofun hkeys
  | cons c keys ih =>
    rcases (m.poll_cases h.buffer (.sysRead stored maxLen)).2 with ⟨hnil, -⟩ | ⟨d, hm, hcons⟩
    · rw [hkeys] at hnil
      cases hnil
    · rw [hkeys] at hcons
      obtain ⟨rfl, hrest⟩ := List.cons.inj hcons
      rw [List.length_cons] at hlt
      have hlen : (stored ++ [c]).length = stored.length + 1 := by
        rw [List.length_append, List.length_singleton]
      have hnext : (m.poll (.sysRead stored maxLen)).mode =
          .poll (.sysRead (stored ++ [c]) maxLen) := by
        rw [hm, Reader.received, if_neg (List.ne_of_not_mem_cons hnl).symm, readNext,
          if_pos (by omega)]
      refine .head (.poll hmode) (ih hrest.symm (h.poll hmode) hnext (by omega) ?_)
      exact List.not_mem_of_not_mem_cons hnl

/-- A call whose keys are not there ends at a `hlt` with interrupts off. -/
theorem Machine.Sound.stuck {m : Machine} (h : m.Sound) (hready : ¬ m.KeysReady) :
    m.GetsStuck := by
  rw [Machine.KeysReady] at hready
  push Not at hready
  obtain ⟨eax, edx, hmode, hready⟩ := hready
  have hcall : m.mode.inSyscall = true := by rw [hmode]; rfl
  by_cases hraw : eax = sysReadRaw ∧ m.keyboard.buffer.contents = []
  · obtain ⟨rfl, hnil⟩ := hraw
    have hnext := h.goto_call hcall (rfl : (Mode.poll .sysReadRaw).inSyscall = true)
    exact .head (.readRaw hmode) (Machine.poll_stuck hnext rfl nofun hnil)
  · obtain ⟨rfl, hnl, hlt⟩ := hready fun heq hnil => hraw ⟨heq, hnil⟩
    have hloop : readNext [] edx = .poll (.sysRead [] edx) :=
      if_pos (by rw [List.length_nil]; omega)
    have hnext := h.goto_call hcall (readNext_inSyscall [] edx)
    rw [List.take_of_length_le (Nat.le_of_lt hlt)] at hnl
    have hfew : ([] : List UInt8).length + m.keyboard.buffer.contents.length < edx.toNat := by
      rw [List.length_nil, Nat.zero_add]
      exact hlt
    exact .head (.read hmode) (Machine.read_stuck rfl hnext hloop hfew hnl)

/-- The kernel waits for a key with interrupts on, as long as every call of `SYS_READ_RAW` and
`SYS_READ` finds its keys in the buffer; a call that does not find them can wait with interrupts
off. -/
theorem key_waits_have_interrupts_on (m : Machine) :
    (Machine.Reached Machine.KeysReady m → ∀ r, m.mode = .hlt r → m.ifFlag = true) ∧
      (Machine.Reached (fun _ => True) m → ¬ m.KeysReady → m.GetsStuck) := by
  constructor
  · intro hrun r hmode
    have hfed := hrun.fed
    rw [hmode] at hfed
    have hr : r = .shellLoop := hfed
    rw [hrun.sound.flag, hmode, hr]
    rfl
  · intro hrun hready
    exact hrun.sound.stuck hready

/-- The first program, before its first instruction. -/
def Machine.firstProgram : Machine := (boot.sti.goto .autoEnterUserMode).asmSwitchToUser

theorem Machine.reached_firstProgram (hboot : P Machine.boot)
    (henter : P (boot.sti.goto .autoEnterUserMode)) : Machine.Reached P Machine.firstProgram :=
  .step (.step .boot hboot (.enable rfl)) henter (.switchToUser rfl)

/-- The key `a` has been typed while the first program ran. -/
def Machine.keyTyped : Machine :=
  { firstProgram.gate 0x21 .keyboardHandler with
    keyboard := keyboardHandler boot.keyboard 1 0x1E }.iret

/-- The program has got the key. -/
def Machine.keyRead : Machine :=
  (((keyTyped.syscallHandlerAsm sysReadRaw 0).goto (.poll .sysReadRaw)).poll .sysReadRaw).iret

/-- It has left, and the shell waits for the next key. -/
def Machine.shellWaits : Machine :=
  ((keyRead.syscallHandlerAsm sysExit 0).goto .exit).userExitReturnStub.poll .shellLoop

theorem shell_waits_after_served_call :
    Machine.Reached Machine.KeysReady Machine.shellWaits ∧
      Machine.shellWaits.mode = .hlt .shellLoop ∧ Machine.shellWaits.ifFlag = true ∧
      (Machine.firstProgram.syscallHandlerAsm sysReadRaw 0).GetsStuck := by
  have hprogram := Machine.reached_firstProgram (P := Machine.KeysReady) nofun nofun
  have htyped : Machine.Reached Machine.KeysReady Machine.keyTyped :=
    .step (.step hprogram nofun (.interrupt rfl)) nofun (.keyboard rfl 1 0x1E)
  have hcall := Machine.Reached.step htyped nofun (.syscall rfl sysReadRaw 0)
  have hready : (Machine.keyTyped.syscallHandlerAsm sysReadRaw 0).KeysReady := by
    intro eax edx hmode
    cases hmode
    exact ⟨fun _ => by decide, fun h => absurd h (by decide)⟩
  have hread : Machine.Reached Machine.KeysReady Machine.keyRead :=
    .step (.step (.step hcall hready (.readRaw rfl)) nofun (.poll rfl)) nofun (.sysReturn rfl)
  have hcall := Machine.Reached.step hread nofun (.syscall rfl sysExit 0)
  have hready : (Machine.keyRead.syscallHandlerAsm sysExit 0).KeysReady := by
    intro eax edx hmode
    cases hmode
    exact ⟨fun h => absurd h (by decide), fun h => absurd h (by decide)⟩
  have hwait : Machine.Reached Machine.KeysReady Machine.shellWaits :=
    .step (.step (.step hcall hready (.exit rfl)) nofun (.exitToShell rfl)) nofun (.poll rfl)
  have hearly : Machine.Reached (fun _ => True)
      (Machine.firstProgram.syscallHandlerAsm sysReadRaw 0) :=
    .step (Machine.reached_firstProgram True.intro True.intro) True.intro
      (.syscall rfl sysReadRaw 0)
  have hempty : ¬ (Machine.firstProgram.syscallHandlerAsm sysReadRaw 0).KeysReady :=
    fun h => (h sysReadRaw 0 rfl).1 rfl (by decide)
  exact ⟨hwait, rfl, (key_waits_have_interrupts_on _).1 hwait .shellLoop rfl,
    (key_waits_have_interrupts_on _).2 hearly hempty⟩

/-- A program that asks for a key before one was typed halts the machine with interrupts off. -/
theorem first_read_raw_waits_with_interrupts_off :
    ¬ ∀ m, Machine.Reached (fun _ => True) m → ∀ r, m.mode = .hlt r → m.ifFlag = true := by
  intro h
  have hprogram := Machine.reached_firstProgram (P := fun _ => True) True.intro True.intro
  have hcall := Machine.Reached.step hprogram True.intro (.syscall rfl sysReadRaw 0)
  have hwait := Machine.Reached.step (.step hcall True.intro (.readRaw rfl)) True.intro (.poll rfl)
  exact absurd (h _ hwait .sysReadRaw rfl) (by decide)

end KernelCustom
