import KernelCustom.CommandHistory
import KernelCustom.LoggedArray
import KernelCustom.VariableExpansion

namespace KernelCustom
open CString LoggedArray
set_option autoImplicit true

/-- What the user shell asks of the kernel. -/
inductive UserCall where
  | write (bytes : List UInt8)
  | clear
  | exit (status : Int)
  deriving DecidableEq

/-- The variables of `read_line`, and what it has written so far. -/
structure ReadLine where
  buf : Tracked
  pos : Int
  len : Int
  histIdx : Int
  output : List UserCall

def ReadLine.start (h : History) (buf : Int → UInt8) : ReadLine := ⟨⟨buf, []⟩, 0, 0, h.count, []⟩

def ReadLine.write (r : ReadLine) (bytes : List UInt8) : ReadLine :=
  { r with output := r.output ++ [.write bytes] }

/-- `sys_write_str(&buf[i])`. -/
def ReadLine.writeFrom (r : ReadLine) (i : Int) : ReadLine :=
  r.write (arrayText fun j => r.buf.bytes (i + j))

/-- A number of `sys_write_str` calls for the same string. -/
def ReadLine.writeTimes (r : ReadLine) (n : Int) (bytes : List UInt8) : ReadLine :=
  { r with output := r.output ++ List.replicate n.toNat (.write bytes) }

/-- `backspace_n`. -/
def ReadLine.backspaceN (r : ReadLine) (n : Int) : ReadLine :=
  ((r.writeTimes n [8]).writeTimes n [32]).writeTimes n [8]

/-- `show_prompt`. -/
def ReadLine.showPrompt (r : ReadLine) (e : Environment) : ReadLine :=
  if e.value (ascii "PS1") ≠ [] then r.write (e.value (ascii "PS1")) else r.write (ascii "$ ")

/-- `strcpy(buf, history[hist_idx])` and what follows it. -/
def ReadLine.load (r : ReadLine) (h : History) : ReadLine :=
  let r := { r with buf := (r.buf.copy (h.rows r.histIdx)).measure }
  let r := { r with len := arrayLength r.buf.bytes }
  ReadLine.writeFrom { r with pos := r.len } 0

def ReadLine.upKey (r : ReadLine) (h : History) : ReadLine :=
  if 0 < r.histIdx then
    (ReadLine.backspaceN { r with histIdx := r.histIdx - 1 } r.len).load h
  else r

def ReadLine.downKey (r : ReadLine) (h : History) : ReadLine :=
  if r.histIdx < h.count then
    let r := ReadLine.backspaceN { r with histIdx := r.histIdx + 1 } r.len
    if r.histIdx = h.count then { r with buf := r.buf.store 0 0, len := 0, pos := 0 }
    else r.load h
  else r

def ReadLine.leftKey (r : ReadLine) : ReadLine :=
  if 0 < r.pos then ReadLine.write { r with pos := r.pos - 1 } [8] else r

def ReadLine.rightKey (r : ReadLine) : ReadLine :=
  if r.pos < r.len then
    let r' := r.writeFrom r.pos
    ReadLine.writeTimes { r' with pos := r.len } (r.len - r.pos) [8]
  else r

def ReadLine.clearKey (r : ReadLine) (e : Environment) : ReadLine :=
  let r := ReadLine.showPrompt { r with output := r.output ++ [.clear] } e
  (r.writeFrom 0).writeTimes (r.len - r.pos) [8]

def ReadLine.backspaceKey (r : ReadLine) : ReadLine :=
  if 0 < r.pos then
    let r := { r with pos := r.pos - 1 }
    let r := { r with buf := r.buf.shiftLeft (r.len - 1 - r.pos).toNat r.pos }
    let r := ReadLine.write { r with len := r.len - 1 } [8]
    ((r.writeFrom r.pos).write [32]).writeTimes (r.len + 1 - r.pos) [8]
  else r

def ReadLine.insertKey (r : ReadLine) (max : Int) (c : UInt8) : ReadLine :=
  if r.len < max - 1 then
    let r := { r with buf := (r.buf.shiftRight (r.len - r.pos).toNat r.len).store r.pos c }
    let r := { r with pos := r.pos + 1, len := r.len + 1 }
    (r.writeFrom (r.pos - 1)).writeTimes (r.len - r.pos) [8]
  else r

/-- One round of `read_line` with what `sys_read_raw` returned, for every key but Enter. -/
def ReadLine.key (e : Environment) (h : History) (max : Int) (r : ReadLine) (c : UInt8) :
    ReadLine :=
  if c = 0x1B then r
  else if c = 0x11 then r.upKey h
  else if c = 0x12 then r.downKey h
  else if c = 0x13 then r.leftKey
  else if c = 0x14 then r.rightKey
  else if c = 0x0C then r.clearKey e
  else if c = 8 then r.backspaceKey
  else r.insertKey max c

/-- Enter: the line is terminated and goes to the history, and `read_line` returns. -/
def ReadLine.enterKey (r : ReadLine) (h : History) : ReadLine × History :=
  let r := ReadLine.write { r with buf := r.buf.store r.len 0 } [10]
  (r, h.add r.buf.bytes)

end KernelCustom
