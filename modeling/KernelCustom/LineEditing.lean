import KernelCustom.LineEditor
import KernelCustom.ShellBounds

namespace KernelCustom
open CString LineEditor
set_option autoImplicit true

/-- What the keyboard gives for a key with a character on it. -/
abbrev Printable := { c : UInt8 // 32 ≤ c ∧ c ≠ 127 }

/-- The byte of an editing key in the key buffer. -/
def keyByte : Key Printable → UInt8
  | .char c => c.1
  | .backspace => 8
  | .left => 0x13
  | .right => 0x14

section
variable {ω : Type} {s s' : Shell ω}

/-- The calls that print some bytes of an array. -/
def putCells (a : Int → UInt8) (i : Int) (n : Nat) : List VgaCall :=
  (List.range n).map fun k : Nat => .putc (a (i + k))

def backs (n : Nat) : List VgaCall := List.replicate n (.putc 8)

theorem putCells_succ (a : Int → UInt8) (i : Int) (n : Nat) :
    putCells a i (n + 1) = .putc (a i) :: putCells a (i + 1) n := by
  rw [putCells, List.range_succ_eq_map, List.map_cons, List.map_map]
  congr 1
  · rw [Int.natCast_zero, Int.add_zero]
  · refine List.map_congr_left fun k _ => ?_
    change VgaCall.putc (a (i + ((k + 1 : Nat) : Int))) = _
    congr 2
    omega

/-- Work on the line: the buffer and the counters that it leaves and what it asks of the screen. -/
def Shell.Becomes (s : Shell ω) (buf : Int → UInt8) (p l : Int) (calls : List VgaCall)
    (s' : Shell ω) : Prop :=
  ∃ acc, s' = { s with
    inputBuffer := buf, pos := p, len := l, accesses := acc, screen := s.screen ++ calls }

theorem Shell.Becomes.refl (s : Shell ω) : s.Becomes s.inputBuffer s.pos s.len [] s :=
  ⟨s.accesses, by rw [List.append_nil]⟩

theorem Shell.Becomes.move (h : s.Becomes buf p l calls s') (p' l' : Int) :
    s.Becomes buf p' l' calls { s' with pos := p', len := l' } := by
  obtain ⟨acc, rfl⟩ := h
  exact ⟨acc, rfl⟩

theorem Shell.Becomes.print (h : s.Becomes buf p l calls s') (out : List VgaCall) :
    s.Becomes buf p l (calls ++ out) (s'.print out) := by
  obtain ⟨acc, rfl⟩ := h
  exact ⟨acc, by simp only [Shell.print, List.append_assoc]⟩

theorem Shell.Becomes.cursorBack (h : s.Becomes buf p l calls s') (k : Int) :
    s.Becomes buf p l (calls ++ backs k.toNat) (s'.cursorBack k) := h.print _

theorem Shell.Becomes.access (h : s.Becomes buf p l calls s') (indices : List Int) :
    s.Becomes buf p l calls (s'.access indices) := by
  obtain ⟨acc, rfl⟩ := h
  exact ⟨acc ++ indices, rfl⟩

theorem Shell.Becomes.store (h : s.Becomes buf p l calls s') (i : Int) (c : UInt8) :
    s.Becomes (Function.update buf i c) p l calls (s'.store i c) := by
  obtain ⟨acc, rfl⟩ := h
  exact ⟨acc ++ [i], rfl⟩

theorem Shell.Becomes.inputBuffer (h : s.Becomes buf p l calls s') : s'.inputBuffer = buf := by
  obtain ⟨acc, rfl⟩ := h
  rfl

theorem Shell.Becomes.pos (h : s.Becomes buf p l calls s') : s'.pos = p := by
  obtain ⟨acc, rfl⟩ := h
  rfl

theorem Shell.Becomes.len (h : s.Becomes buf p l calls s') : s'.len = l := by
  obtain ⟨acc, rfl⟩ := h
  rfl

theorem Shell.Becomes.shiftLeft (h : s.Becomes buf p l calls s') (n : Nat) (i : Int) :
    s.Becomes (fun j => if i ≤ j ∧ j < i + n then buf (j + 1) else buf j) p l calls
      (s'.shiftLeft n i) := by
  induction n generalizing i s' buf with
  | zero =>
    have hsame : (fun j => if i ≤ j ∧ j < i + (0 : Nat) then buf (j + 1) else buf j) = buf := by
      funext j
      rw [if_neg (by omega)]
    rw [hsame]
    exact h
  | succ n ih =>
    have hstep := ih ((h.access [i + 1]).store i (s'.inputBuffer (i + 1))) (i + 1)
    rw [h.inputBuffer] at hstep
    rw [Shell.shiftLeft, h.inputBuffer]
    convert hstep using 1
    funext j
    simp only [Function.update_apply]
    by_cases hj : j = i
    · rw [if_pos (by omega), if_neg (by omega), if_pos hj, hj]
    by_cases hin : i + 1 ≤ j ∧ j < i + 1 + n
    · rw [if_pos (by omega), if_pos hin, if_neg (by omega)]
    · rw [if_neg (by omega), if_neg hin, if_neg hj]

theorem Shell.Becomes.shiftRight (h : s.Becomes buf p l calls s') (n : Nat) (i : Int) :
    s.Becomes (fun j => if i - n < j ∧ j ≤ i then buf (j - 1) else buf j) p l calls
      (s'.shiftRight n i) := by
  induction n generalizing i s' buf with
  | zero =>
    have hsame : (fun j => if i - (0 : Nat) < j ∧ j ≤ i then buf (j - 1) else buf j) = buf := by
      funext j
      rw [if_neg (by omega)]
    rw [hsame]
    exact h
  | succ n ih =>
    have hstep := ih ((h.access [i - 1]).store i (s'.inputBuffer (i - 1))) (i - 1)
    rw [h.inputBuffer] at hstep
    rw [Shell.shiftRight, h.inputBuffer]
    convert hstep using 1
    funext j
    simp only [Function.update_apply]
    by_cases hj : j = i
    · rw [if_pos (by omega), if_neg (by omega), if_pos hj, hj]
    by_cases hin : i - 1 - n < j ∧ j ≤ i - 1
    · rw [if_pos (by omega), if_pos hin, if_neg (by omega)]
    · rw [if_neg (by omega), if_neg hin, if_neg hj]

theorem Shell.Becomes.echo (h : s.Becomes buf p l calls s') (n : Nat) (i : Int) :
    s.Becomes buf p l (calls ++ putCells buf i n) (s'.echo n i) := by
  induction n generalizing i s' calls with
  | zero =>
    rw [putCells, List.range_zero, List.map_nil, List.append_nil]
    exact h
  | succ n ih =>
    have hstep := ih ((h.access [i]).print [.putc (s'.inputBuffer i)]) (i + 1)
    rw [h.inputBuffer, List.append_assoc, List.singleton_append, ← putCells_succ] at hstep
    rw [Shell.echo, h.inputBuffer]
    exact hstep

/-- What a backspace does to the line and asks of the screen. -/
theorem Shell.backspaceKey_becomes (s : Shell ω) (h : 0 < s.pos) : ∃ buf,
    (∀ j, buf j = if s.pos - 1 ≤ j ∧ j < s.pos - 1 + (s.len - 1 - (s.pos - 1)).toNat
      then s.inputBuffer (j + 1) else s.inputBuffer j) ∧
    s.Becomes buf (s.pos - 1) (s.len - 1)
      ([.putc 8] ++ putCells buf (s.pos - 1) (s.len - 1 - (s.pos - 1)).toNat ++ [.putc 32] ++
        backs (s.len - 1 + 1 - (s.pos - 1)).toNat) s.backspaceKey := by
  refine ⟨_, fun j => rfl, ?_⟩
  rw [Shell.backspaceKey, if_pos h]
  extract_lets s₁ s₂ s₃ s₄
  have h₁ : s.Becomes _ _ _ _ s₁ := (Shell.Becomes.refl s).move _ _
  have h₂ : s.Becomes _ _ _ _ s₂ := h₁.shiftLeft _ _
  have h₃ : s.Becomes _ _ _ _ s₃ := (h₂.move s₂.pos _).print _
  rw [h₂.pos, h₂.len] at h₃
  have h₄ : s.Becomes _ _ _ _ s₄ := (h₃.echo _ _).print _
  rw [h₃.pos, h₃.len] at h₄
  rw [h₄.pos, h₄.len]
  exact h₄.cursorBack _

theorem Shell.insertKey_becomes (s : Shell ω) (c : UInt8) (h : s.len < shellBufSize - 1) : ∃ buf,
    (buf = Function.update (fun j => if s.len - (s.len - s.pos).toNat < j ∧ j ≤ s.len
      then s.inputBuffer (j - 1) else s.inputBuffer j) s.pos c) ∧
    s.Becomes buf (s.pos + 1) (s.len + 1)
      (putCells buf s.pos (s.len + 1 - s.pos).toNat ++ backs (s.len + 1 - (s.pos + 1)).toNat)
      (s.insertKey c) := by
  refine ⟨_, rfl, ?_⟩
  rw [Shell.insertKey, if_pos h]
  extract_lets s₁ s₂ s₃ s₄
  have h₁ : s.Becomes _ _ _ _ s₁ := ((Shell.Becomes.refl s).shiftRight _ _).store _ _
  have h₂ : s.Becomes _ _ _ _ s₂ := h₁.move s₁.pos _
  rw [h₁.pos, h₁.len] at h₂
  have h₃ : s.Becomes _ _ _ _ s₃ := h₂.echo _ _
  rw [h₂.pos, h₂.len] at h₃
  have h₄ : s.Becomes _ _ _ _ s₄ := h₃.move _ s₃.len
  rw [h₃.pos, h₃.len] at h₄
  rw [h₄.pos, h₄.len]
  exact h₄.cursorBack _

theorem Shell.rightKey_becomes (s : Shell ω) (h : s.pos < s.len) :
    s.Becomes s.inputBuffer (s.pos + 1) s.len (putCells s.inputBuffer s.pos 1) s.rightKey := by
  have hecho := (Shell.Becomes.refl s).echo 1 s.pos
  have hmove := hecho.move (s.pos + 1) (s.echo 1 s.pos).len
  rw [hecho.len] at hmove
  rw [Shell.rightKey, if_pos h]
  exact hmove

theorem Shell.leftKey_becomes (s : Shell ω) (h : 0 < s.pos) :
    s.Becomes s.inputBuffer (s.pos - 1) s.len [.putc 8] s.leftKey := by
  rw [Shell.leftKey, if_pos h]
  exact ((Shell.Becomes.refl s).move (s.pos - 1) s.len).print [.putc 8]

theorem Shell.Becomes.world (h : s.Becomes buf p l calls s') : s'.world = s.world := by
  obtain ⟨acc, rfl⟩ := h
  rfl

/-- A line of the shell as a text with a cursor. -/
abbrev Line := Editor Printable 255

def chars (t : List Printable) : List UInt8 := t.map fun c => c.1

/-- The buffer and the counters stand for a line. -/
structure Shell.Holds (s : Shell ω) (e : Line) : Prop where
  pos : s.pos = e.cursor
  len : s.len = e.text.length
  begins : Begins s.inputBuffer (chars e.text)

theorem Shell.Becomes.holds {e : Line} (h : s.Becomes buf p l calls s') (hp : p = e.cursor)
    (hl : l = e.text.length) (hb : Begins buf (chars e.text)) : s'.Holds e := by
  obtain ⟨acc, rfl⟩ := h
  exact ⟨hp, hl, hb⟩

theorem Shell.Holds.insertKey {e : Line} (h : s.Holds e) (c : Printable) :
    (s.insertKey c.1).Holds (e.insert c) := by
  have hlen := h.len
  have hpos := h.pos
  have hle := e.cursor_le
  have hs : shellBufSize = 256 := rfl
  by_cases hcap : e.text.length < 255
  · obtain ⟨buf, hbuf, hb⟩ := s.insertKey_becomes c.1 (by omega)
    rw [Editor.insert, dif_pos hcap]
    refine hb.holds ?_ ?_ ?_
    · change s.pos + 1 = ((e.cursor + 1 : Nat) : Int)
      omega
    · change s.len + 1 = ((e.text.insertIdx e.cursor c).length : Int)
      rw [List.length_insertIdx_of_le_length hle]
      omega
    · change Begins buf (chars (e.text.insertIdx e.cursor c))
      rw [chars, List.map_insertIdx]
      refine h.begins.insertIdx (by rw [chars, List.length_map]; exact hle) fun j hj => ?_
      rw [chars, List.length_map] at hj
      rw [hbuf, hpos, hlen, Function.update_apply]
      by_cases hat : j = e.cursor
      · rw [if_pos (by omega), if_neg (by omega), if_pos hat]
      rw [if_neg (by omega)]
      by_cases hbefore : j < e.cursor
      · rw [if_neg (by omega), if_pos hbefore]
      · rw [if_pos (by omega), if_neg hbefore, if_neg hat, Int.natCast_sub (by omega)]
        rfl
  · rw [Shell.insertKey, if_neg (by omega), Editor.insert, dif_neg hcap]
    exact h

theorem Shell.Holds.backspaceKey {e : Line} (h : s.Holds e) : s.backspaceKey.Holds e.backspace := by
  have hlen := h.len
  have hpos := h.pos
  have hle := e.cursor_le
  by_cases hcursor : 0 < e.cursor
  · obtain ⟨buf, hbuf, hb⟩ := s.backspaceKey_becomes (by omega)
    rw [Editor.backspace, dif_pos hcursor]
    refine hb.holds ?_ ?_ ?_
    · change s.pos - 1 = ((e.cursor - 1 : Nat) : Int)
      omega
    · change s.len - 1 = ((e.text.eraseIdx (e.cursor - 1)).length : Int)
      rw [List.length_eraseIdx_of_lt (by omega)]
      omega
    · change Begins buf (chars (e.text.eraseIdx (e.cursor - 1)))
      rw [chars, ← List.eraseIdx_map]
      refine h.begins.eraseIdx (by rw [chars, List.length_map]; omega) fun j hj => ?_
      rw [chars, List.length_map] at hj
      rw [hbuf]
      by_cases hbefore : j < e.cursor - 1
      · rw [if_neg (by omega), if_pos hbefore]
      · rw [if_pos (by omega), if_neg hbefore]
  · rw [Shell.backspaceKey, if_neg (by omega), Editor.backspace, dif_neg hcursor]
    exact h

theorem Shell.Holds.leftKey {e : Line} (h : s.Holds e) : s.leftKey.Holds e.left := by
  have hpos := h.pos
  by_cases hcursor : 0 < s.pos
  · refine (s.leftKey_becomes hcursor).holds ?_ h.len h.begins
    change s.pos - 1 = ((e.cursor - 1 : Nat) : Int)
    omega
  · rw [Shell.leftKey, if_neg hcursor]
    exact ⟨by change s.pos = ((e.cursor - 1 : Nat) : Int); omega, h.len, h.begins⟩

theorem Shell.Holds.rightKey {e : Line} (h : s.Holds e) : s.rightKey.Holds e.right := by
  have hpos := h.pos
  have hlen := h.len
  by_cases hcursor : e.cursor < e.text.length
  · rw [Editor.right, dif_pos hcursor]
    refine (s.rightKey_becomes (by omega)).holds ?_ h.len h.begins
    change s.pos + 1 = ((e.cursor + 1 : Nat) : Int)
    omega
  · rw [Shell.rightKey, if_neg (by omega), Editor.right, dif_neg hcursor]
    exact h

/-- An editing key does not reach the commands. -/
theorem Shell.key_char (s : Shell ω) (cmds : ShellCommands ω) (c : Printable) :
    s.key cmds c.1 = s.insertKey c.1 := by
  have hne : ∀ b : UInt8, b < 32 → c.1 ≠ b := by
    intro b hb heq
    exact absurd (heq ▸ c.2.1) (UInt8.not_le.2 hb)
  simp only [Shell.key, if_neg (hne 0 (by decide)), if_neg (hne 10 (by decide)),
    if_neg (hne 0x11 (by decide)), if_neg (hne 0x12 (by decide)), if_neg (hne 8 (by decide)),
    if_neg (hne 0x13 (by decide)), if_neg (hne 0x14 (by decide))]

theorem Shell.Holds.key {e : Line} (h : s.Holds e) (cmds : ShellCommands ω) (k : Key Printable) :
    (s.key cmds (keyByte k)).Holds (e.key k) := by
  cases k with
  | char c =>
    rw [keyByte, Shell.key_char]
    exact h.insertKey c
  | backspace => exact h.backspaceKey
  | left => exact h.leftKey
  | right => exact h.rightKey

/-- An editing key works on the line only. -/
theorem Shell.key_becomes (s : Shell ω) (cmds : ShellCommands ω) (k : Key Printable) :
    ∃ buf p l calls, s.Becomes buf p l calls (s.key cmds (keyByte k)) := by
  have hstay := Shell.Becomes.refl s
  cases k with
  | char c =>
    rw [keyByte, Shell.key_char]
    by_cases h : s.len < shellBufSize - 1
    · obtain ⟨buf, -, hb⟩ := s.insertKey_becomes c.1 h
      exact ⟨_, _, _, _, hb⟩
    · rw [Shell.insertKey, if_neg h]
      exact ⟨_, _, _, _, hstay⟩
  | backspace =>
    change ∃ buf p l calls, s.Becomes buf p l calls s.backspaceKey
    by_cases h : 0 < s.pos
    · obtain ⟨buf, -, hb⟩ := s.backspaceKey_becomes h
      exact ⟨_, _, _, _, hb⟩
    · rw [Shell.backspaceKey, if_neg h]
      exact ⟨_, _, _, _, hstay⟩
  | left =>
    change ∃ buf p l calls, s.Becomes buf p l calls s.leftKey
    by_cases h : 0 < s.pos
    · exact ⟨_, _, _, _, s.leftKey_becomes h⟩
    · rw [Shell.leftKey, if_neg h]
      exact ⟨_, _, _, _, hstay⟩
  | right =>
    change ∃ buf p l calls, s.Becomes buf p l calls s.rightKey
    by_cases h : s.pos < s.len
    · exact ⟨_, _, _, _, s.rightKey_becomes h⟩
    · rw [Shell.rightKey, if_neg h]
      exact ⟨_, _, _, _, hstay⟩

theorem Shell.key_world (s : Shell ω) (cmds : ShellCommands ω) (k : Key Printable) :
    (s.key cmds (keyByte k)).world = s.world := by
  obtain ⟨buf, p, l, calls, h⟩ := s.key_becomes cmds k
  exact h.world

/-- The shell after some editing keys. -/
def Shell.edit (cmds : ShellCommands ω) (s : Shell ω) (keys : List (Key Printable)) : Shell ω :=
  (keys.map keyByte).foldl (Shell.key cmds) s

theorem Shell.Holds.edit {e : Line} (h : s.Holds e) (cmds : ShellCommands ω)
    (keys : List (Key Printable)) :
    (s.edit cmds keys).Holds (keys.foldl Editor.key e) ∧ (s.edit cmds keys).world = s.world := by
  induction keys generalizing s e with
  | nil => exact ⟨h, rfl⟩
  | cons k keys ih =>
    obtain ⟨hholds, hworld⟩ := ih (h.key cmds k)
    exact ⟨hholds, hworld.trans (s.key_world cmds k)⟩

/-- A line with a byte for each key ends where the cursor is when Enter is pressed. -/
theorem Shell.Holds.enter_text {e : Line} (h : s.Holds e) :
    arrayText (Function.update s.inputBuffer s.pos 0) = chars (e.text.take e.cursor) := by
  have hcap := e.length_le
  have hle := e.cursor_le
  have hlength : (chars (e.text.take e.cursor)).length = e.cursor := by
    rw [chars, List.length_map, List.length_take, Nat.min_eq_left hle]
  refine Spells.text ⟨fun i hi => ?_, ?_, fun hz => ?_, by omega⟩
  · have hpos := h.pos
    have hsplit : chars e.text =
        chars (e.text.take e.cursor) ++ chars (e.text.drop e.cursor) := by
      rw [chars, chars, chars, ← List.map_append, List.take_append_drop]
    rw [Function.update_of_ne (by omega)]
    exact (hsplit ▸ h.begins).append_left i hi
  · rw [hlength, h.pos, Function.update_self]
  · obtain ⟨c, -, hc⟩ := List.mem_map.1 hz
    exact absurd (hc ▸ c.2.1) (by decide)

/-- Commands with a record of the lines that they got. -/
def ShellCommands.recording (cmds : ShellCommands ω) : ShellCommands (ω × List (List UInt8)) where
  handleCommand line w :=
    (((cmds.handleCommand line w.1).1, w.2 ++ [line]), (cmds.handleCommand line w.1).2)
  gCwdPath w := cmds.gCwdPath w.1

theorem Shell.enterKey_recording (s : Shell (ω × List (List UInt8))) (cmds : ShellCommands ω) :
    (s.enterKey cmds.recording).world.2 =
      s.world.2 ++ [arrayText (Function.update s.inputBuffer s.pos 0)] := by
  let typed := (s.store s.pos 0).print (puts (ascii "\n"))
  change typed.remember.world.2 ++ [arrayText typed.remember.inputBuffer] = _
  rw [Shell.remember_world, Shell.remember_inputBuffer]
  rfl

/-- The line that goes to `handle_command` is the edited one up to the cursor. -/
theorem Shell.Holds.line_passed {s : Shell (ω × List (List UInt8))} {e : Line} (h : s.Holds e)
    (cmds : ShellCommands ω) (keys : List (Key Printable)) :
    ((s.edit cmds.recording keys).key cmds.recording 10).world.2 = s.world.2 ++
      [chars ((keys.foldl Editor.key e).text.take (keys.foldl Editor.key e).cursor)] := by
  obtain ⟨hholds, hworld⟩ := h.edit cmds.recording keys
  rw [← hworld, ← hholds.enter_text]
  exact Shell.enterKey_recording _ cmds

theorem chars_take_eq_iff (e : Line) : chars (e.text.take e.cursor) = chars e.text ↔
    e.cursor = e.text.length := by
  have hle := e.cursor_le
  rw [chars, chars, (List.map_injective_iff.2 Subtype.val_injective).eq_iff]
  constructor
  · intro h
    have hlength := congrArg List.length h
    rw [List.length_take] at hlength
    omega
  · intro h
    exact List.take_of_length_le (by omega)

/-- The shell runs the edited line exactly when the cursor is at its end. -/
theorem edited_line_runs_iff (cmds : ShellCommands ω) (s : Shell (ω × List (List UInt8)))
    (keys : List (Key Printable)) :
    ((Shell.edit cmds.recording { s with pos := 0, len := 0 } keys).key cmds.recording 10).world.2 =
        s.world.2 ++ [chars (Editor.typed keys : Line).text] ↔
      (Editor.typed keys : Line).cursor = (Editor.typed keys : Line).text.length := by
  have hempty : Shell.Holds { s with pos := 0, len := 0 } (.empty : Line) :=
    ⟨rfl, rfl, fun i hi => absurd hi (Nat.not_lt_zero i)⟩
  rw [hempty.line_passed, ← chars_take_eq_iff, List.append_cancel_left_eq, List.singleton_inj]
  rfl

def abLeft : List (Key Printable) := [.char ⟨97, by decide⟩, .char ⟨98, by decide⟩, .left]

/-- `a`, `b`, left, Enter: `handle_command` gets `a`. -/
theorem line_cut_at_cursor :
    ((((Shell.boot ((), [])).enter idleCommands.recording).edit idleCommands.recording abLeft).key
        idleCommands.recording 10).world.2 = [[97]] ∧
      chars (Editor.typed abLeft : Line).text = [97, 98] := by
  have hempty : ((Shell.boot ((), ([] : List (List UInt8)))).enter idleCommands.recording).Holds
      (.empty : Line) :=
    ⟨rfl, rfl, fun i hi => absurd hi (Nat.not_lt_zero i)⟩
  rw [hempty.line_passed]
  decide

end

end KernelCustom
