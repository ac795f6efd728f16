import KernelCustom.Directory

namespace KernelCustom
open CString
set_option autoImplicit true

def shellBufSize : Int := 256
def maxHistory : Int := 30

inductive Color where
  | black
  | green
  | lightCyan
  | white
  deriving DecidableEq

/-- What the kernel asks of the screen. -/
inductive VgaCall where
  | putc (c : UInt8)
  | setColor (fg bg : Color)
  deriving DecidableEq

def puts (s : List UInt8) : List VgaCall := s.map .putc

/-- What `shell_loop` needs of the commands: `handle_command`, which gets the line as a string,
changes what it works on and prints something, and the text of `g_cwd_path`. -/
structure ShellCommands (ω : Type) where
  handleCommand : List UInt8 → ω → ω × List VgaCall
  gCwdPath : ω → List UInt8

/-- The static variables of `shell_loop` and of the history, what the commands work on, and what
has been done so far: the indices at which `input_buffer` was read or written and the calls to
the screen. `input_buffer` has 256 bytes, so the state is the program's as long as no index lies
outside. -/
structure Shell (ω : Type) where
  inputBuffer : Int → UInt8
  pos : Int
  len : Int
  gHistory : Int → Int → UInt8
  gHistoryCount : Int
  gHistoryIdx : Int
  gShellNeedsReset : Bool
  world : ω
  accesses : List Int
  screen : List VgaCall

section
variable {ω : Type}

def Shell.print (s : Shell ω) (calls : List VgaCall) : Shell ω :=
  { s with screen := s.screen ++ calls }

def Shell.access (s : Shell ω) (indices : List Int) : Shell ω :=
  { s with accesses := s.accesses ++ indices }

def Shell.store (s : Shell ω) (i : Int) (c : UInt8) : Shell ω :=
  { s with inputBuffer := Function.update s.inputBuffer i c, accesses := s.accesses ++ [i] }

/-- The indices `0 .. n` of an array. -/
def upTo (n : Nat) : List Int := (List.range (n + 1)).map fun i : Nat => (i : Int)

/-- `for (i = 0; i < SHELL_BUF_SIZE; i++) input_buffer[i] = 0`. -/
def Shell.clearBuffer (s : Shell ω) : Shell ω :=
  { s with
    inputBuffer := fun i => if 0 ≤ i ∧ i < shellBufSize then 0 else s.inputBuffer i
    accesses := s.accesses ++ upTo 255 }

/-- The prompt. -/
def Shell.prompt (cmds : ShellCommands ω) (s : Shell ω) : Shell ω :=
  s.print ([.setColor .green .black] ++ puts (ascii "Kernel:") ++
    [.setColor .lightCyan .black] ++ puts (cmds.gCwdPath s.world) ++
    [.setColor .white .black] ++ puts (ascii "> "))

/-- What `shell_loop` does before its loop. -/
def Shell.enter (cmds : ShellCommands ω) (s : Shell ω) : Shell ω :=
  if s.gShellNeedsReset then
    let s := Shell.clearBuffer { s with gShellNeedsReset := false, pos := 0, len := 0 }
    (s.print (puts (ascii "\n"))).prompt cmds
  else s

/-- A full history moves up by one line: `strcpy` of each row to the one before it. -/
def rollHistory (h : Int → Int → UInt8) : Nat → Int → Int → Int → UInt8
  | 0, _ => h
  | n + 1, i => rollHistory (Function.update h (i - 1) (strcpy (h (i - 1)) (h i))) n (i + 1)

/-- A line that is not empty goes to the history, unless it repeats the last one. -/
def Shell.remember (s : Shell ω) : Shell ω :=
  if 0 < s.pos then
    let last := s.gHistory ((s.gHistoryCount - 1) % maxHistory)
    let index := compareIndex last s.inputBuffer
    -- the history is looked at only when it has a line
    let s' := if s.gHistoryCount = 0 then s else s.access (upTo index)
    if s.gHistoryCount = 0 ∨ last index ≠ s.inputBuffer index then
      let s' := s'.access (upTo (arrayLength s.inputBuffer))
      if s.gHistoryCount < maxHistory then
        { s' with
          gHistory := Function.update s.gHistory s.gHistoryCount
            (strcpy (s.gHistory s.gHistoryCount) s.inputBuffer)
          gHistoryCount := s.gHistoryCount + 1 }
      else
        let h := rollHistory s.gHistory 29 1
        { s' with
          gHistory := Function.update h (maxHistory - 1)
            (strcpy (h (maxHistory - 1)) s.inputBuffer) }
    else s'
  else s

def Shell.enterKey (cmds : ShellCommands ω) (s : Shell ω) : Shell ω :=
  let s := ((s.store s.pos 0).print (puts (ascii "\n"))).remember
  let s := { s with gHistoryIdx := s.gHistoryCount }
  -- `handle_command` reads the line up to its NUL
  let s := s.access (upTo (arrayLength s.inputBuffer))
  let r := cmds.handleCommand (arrayText s.inputBuffer) s.world
  let s := Shell.print { s with world := r.1 } r.2
  (Shell.clearBuffer { s with pos := 0, len := 0 }).prompt cmds

/-- Wiping the typed characters from the screen. -/
def Shell.wipe (s : Shell ω) : Shell ω :=
  s.print (List.replicate s.pos.toNat (puts [8, 32, 8])).flatten

/-- Loading a line of the history. -/
def Shell.loadHistory (s : Shell ω) : Shell ω :=
  let row := s.gHistory s.gHistoryIdx
  let s := Shell.access { s with inputBuffer := strcpy s.inputBuffer row } (upTo (arrayLength row))
  -- `strlen` and `vga_puts`
  let s := s.access (upTo (arrayLength s.inputBuffer))
  let s := { s with pos := arrayLength s.inputBuffer }
  (s.access (upTo (arrayLength s.inputBuffer))).print (puts (arrayText s.inputBuffer))

def Shell.upKey (s : Shell ω) : Shell ω :=
  if 0 < s.gHistoryCount ∧ 0 < s.gHistoryIdx then
    (Shell.wipe { s with gHistoryIdx := s.gHistoryIdx - 1 }).loadHistory
  else s

def Shell.downKey (s : Shell ω) : Shell ω :=
  if s.gHistoryIdx < s.gHistoryCount then
    let s := Shell.wipe { s with gHistoryIdx := s.gHistoryIdx + 1 }
    if s.gHistoryIdx = s.gHistoryCount then { s.store 0 0 with pos := 0 }
    else s.loadHistory
  else s

/-- `for (i = pos; i < len - 1; i++) input_buffer[i] = input_buffer[i + 1]`, that many rounds. -/
def Shell.shiftLeft : Nat → Int → Shell ω → Shell ω
  | 0, _, s => s
  | n + 1, i, s => shiftLeft n (i + 1) ((s.access [i + 1]).store i (s.inputBuffer (i + 1)))

/-- `for (i = len; i > pos; i--) input_buffer[i] = input_buffer[i - 1]`, that many rounds. -/
def Shell.shiftRight : Nat → Int → Shell ω → Shell ω
  | 0, _, s => s
  | n + 1, i, s => shiftRight n (i - 1) ((s.access [i - 1]).store i (s.inputBuffer (i - 1)))

/-- `vga_putc(input_buffer[i])` for that many characters from `i` on. -/
def Shell.echo : Nat → Int → Shell ω → Shell ω
  | 0, _, s => s
  | n + 1, i, s => echo n (i + 1) ((s.access [i]).print [.putc (s.inputBuffer i)])

def Shell.cursorBack (n : Int) (s : Shell ω) : Shell ω :=
  s.print (List.replicate n.toNat (.putc 8))

def Shell.backspaceKey (s : Shell ω) : Shell ω :=
  if 0 < s.pos then
    let s := { s with pos := s.pos - 1 }
    let s := s.shiftLeft (s.len - 1 - s.pos).toNat s.pos
    let s := Shell.print { s with len := s.len - 1 } [.putc 8]
    let s := (s.echo (s.len - s.pos).toNat s.pos).print [.putc 32]
    s.cursorBack (s.len + 1 - s.pos)
  else s

def Shell.leftKey (s : Shell ω) : Shell ω :=
  if 0 < s.pos then Shell.print { s with pos := s.pos - 1 } [.putc 8] else s

def Shell.rightKey (s : Shell ω) : Shell ω :=
  if s.pos < s.len then { s.echo 1 s.pos with pos := s.pos + 1 } else s

def Shell.insertKey (s : Shell ω) (c : UInt8) : Shell ω :=
  if s.len < shellBufSize - 1 then
    let s := (s.shiftRight (s.len - s.pos).toNat s.len).store s.pos c
    let s := { s with len := s.len + 1 }
    let s := s.echo (s.len - s.pos).toNat s.pos
    let s := { s with pos := s.pos + 1 }
    s.cursorBack (s.len - s.pos)
  else s

/-- One round of `shell_loop` with what `keyboard_buffer_pop` returned; `0` makes it wait. -/
def Shell.key (cmds : ShellCommands ω) (s : Shell ω) (c : UInt8) : Shell ω :=
  if c = 0 then s
  else if c = 10 then s.enterKey cmds
  else if c = 0x11 then s.upKey
  else if c = 0x12 then s.downKey
  else if c = 8 then s.backspaceKey
  else if c = 0x13 then s.leftKey
  else if c = 0x14 then s.rightKey
  else s.insertKey c

end

end KernelCustom
