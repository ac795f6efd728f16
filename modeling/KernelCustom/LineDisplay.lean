import KernelCustom.LineEditing
import KernelCustom.Vga
import Mathlib.Data.List.Infix

namespace KernelCustom
open CString LineEditor
set_option autoImplicit true

/-- The constant in `vga.c`. -/
def Color.code : Color → UInt8
  | .black => 0
  | .green => 2
  | .lightCyan => 11
  | .white => 15

def VgaCall.screenCall : VgaCall → ScreenCall
  | .putc c => .putc c
  | .setColor fg bg => .setColor fg.code bg.code

/-- The screen after the calls of the shell. -/
def Vga.draw (v : Vga) (calls : List VgaCall) : Vga :=
  calls.foldl (fun v c => v.call c.screenCall) v

theorem Vga.draw_putc (v : Vga) (c : UInt8) (calls : List VgaCall) :
    v.draw (.putc c :: calls) = (v.vgaPutc c).draw calls := rfl

theorem Vga.draw_append (v : Vga) (calls calls' : List VgaCall) :
    v.draw (calls ++ calls') = (v.draw calls).draw calls' := List.foldl_append

/-- The cursor is in a row of the screen, which shows some characters. -/
structure Vga.Row (v : Vga) (r x : Int) (f : Int → UInt8) : Prop where
  cursorX : v.cursorX = x
  cursorY : v.cursorY = r
  visible : r < 25
  chars : ∀ j, 0 ≤ j → j < 80 → v.char (r * 80 + j) = f j

section
variable {v : Vga} {r x : Int} {f : Int → UInt8}

theorem Vga.Row.cursorY_lt (h : v.Row r x f) : v.cursorY < 25 := h.cursorY.trans_lt h.visible

theorem Vga.Row.updateCursor (h : v.Row r x f) : v.vgaUpdateCursor.Row r x f :=
  ⟨h.cursorX, h.cursorY, h.visible, h.chars⟩

/-- Before the last column a character takes its place and moves the cursor. -/
theorem Vga.Row.putc (h : v.Row r x f) (hx : 0 ≤ x) (hx' : x < 79) (hc : c ≠ 10) (hc' : c ≠ 8) :
    (v.vgaPutc c).Row r (x + 1) (Function.update f x c) := by
  have hcx := h.cursorX
  have hplace : (v.place c).Row r (x + 1) (Function.update f x c) := by
    rw [Vga.place, if_neg hc, if_neg hc', if_neg (by change ¬ (80 : Int) ≤ v.cursorX + 1; omega)]
    refine ⟨?_, h.cursorY, h.visible, fun j h₀ h₁ => ?_⟩
    · change v.cursorX + 1 = x + 1
      omega
    · change (v.write (v.cursorY * 80 + v.cursorX) (colored v.gCurrentColor c)).char _ = _
      rw [Vga.char_write, colored_toUInt8, h.chars j h₀ h₁, hcx, h.cursorY, Function.update_apply]
      congr 1
      apply propext
      omega
  change ((v.place c).scrollWhenFull.vgaUpdateCursor).Row r (x + 1) (Function.update f x c)
  rw [Vga.scrollWhenFull_eq hplace.cursorY_lt]
  exact hplace.updateCursor

theorem Vga.Row.back (h : v.Row r x f) (hx : 0 < x) : (v.vgaPutc 8).Row r (x - 1) f := by
  have hcx := h.cursorX
  have hplace : (v.place 8).Row r (x - 1) f := by
    rw [Vga.place, if_neg (by decide), if_pos rfl, if_pos (by omega)]
    exact ⟨by change v.cursorX - 1 = x - 1; omega, h.cursorY, h.visible, h.chars⟩
  change ((v.place 8).scrollWhenFull.vgaUpdateCursor).Row r (x - 1) f
  rw [Vga.scrollWhenFull_eq hplace.cursorY_lt]
  exact hplace.updateCursor

theorem Vga.Row.backs (h : v.Row r x f) (n : Nat) (hn : n ≤ x) :
    (v.draw (backs n)).Row r (x - n) f := by
  induction n generalizing v x with
  | zero =>
    rw [Int.natCast_zero, Int.sub_zero]
    exact h
  | succ n ih =>
    have hrest := ih (h.back (by omega)) (by omega)
    rw [KernelCustom.backs, List.replicate_succ, Vga.draw_putc]
    rw [show x - (n + 1 : Nat) = x - 1 - n by omega]
    exact hrest

theorem Vga.Row.putCells (h : v.Row r x f) (a : Int → UInt8) (i : Int) (n : Nat) (hx : 0 ≤ x)
    (hn : x + n ≤ 79) (ha : ∀ j, i ≤ j → j < i + n → a j ≠ 10 ∧ a j ≠ 8) :
    (v.draw (putCells a i n)).Row r (x + n)
      (fun j => if x ≤ j ∧ j < x + n then a (i + (j - x)) else f j) := by
  induction n generalizing v x f i with
  | zero =>
    refine ⟨h.cursorX.trans (Int.add_zero x).symm, h.cursorY, h.visible, fun j h₀ h₁ => ?_⟩
    rw [if_neg (by omega)]
    exact h.chars j h₀ h₁
  | succ n ih =>
    obtain ⟨hnewline, hback⟩ := ha i (by omega) (by omega)
    have hrest := ih (h.putc hx (by omega) hnewline hback) (i + 1) (by omega) (by omega)
      fun j hj hj' => ha j (by omega) (by omega)
    rw [putCells_succ, Vga.draw_putc]
    refine ⟨?_, hrest.cursorY, hrest.visible, fun j h₀ h₁ => ?_⟩
    · rw [hrest.cursorX]
      omega
    · rw [hrest.chars j h₀ h₁, Function.update_apply]
      by_cases hj : j = x
      · rw [if_neg (by omega), if_pos hj, if_pos (by omega)]
        congr 1
        omega
      by_cases hin : x + 1 ≤ j ∧ j < x + 1 + n
      · rw [if_pos hin, if_pos (by omega)]
        congr 1
        omega
      · rw [if_neg hin, if_neg hj, if_neg (by omega)]

/-- Writing some bytes of an array and going back over the last of them. -/
theorem Vga.Row.redraw (h : v.Row r x f) (a : Int → UInt8) (i : Int) (n m : Nat) (hx : 0 ≤ x)
    (hn : x + n ≤ 79) (hm : m ≤ n) (ha : ∀ j, i ≤ j → j < i + n → a j ≠ 10 ∧ a j ≠ 8) :
    (v.draw (KernelCustom.putCells a i n ++ KernelCustom.backs m)).Row r (x + n - m)
      (fun j => if x ≤ j ∧ j < x + n then a (i + (j - x)) else f j) := by
  rw [Vga.draw_append]
  exact (h.putCells a i n hx hn ha).backs m (by omega)

/-- The same from the column before the cursor, with a space behind the bytes. -/
theorem Vga.Row.erase (h : v.Row r x f) (a : Int → UInt8) (i : Int) (n m : Nat) (hx : 0 < x)
    (hn : x + n ≤ 79) (hm : m ≤ n + 1) (ha : ∀ j, i ≤ j → j < i + n → a j ≠ 10 ∧ a j ≠ 8) :
    (v.draw ([.putc 8] ++ KernelCustom.putCells a i n ++ [.putc 32] ++ KernelCustom.backs m)).Row r
      (x + n - m) (Function.update
        (fun j => if x - 1 ≤ j ∧ j < x - 1 + n then a (i + (j - (x - 1))) else f j)
        (x - 1 + n) 32) := by
  have hcells := (h.back hx).putCells a i n (by omega) (by omega) ha
  have hspace : Vga.Row _ _ _ _ := hcells.putc (by omega) (by omega) (by decide : (32 : UInt8) ≠ 10)
    (by decide)
  have hrow := hspace.backs m (by omega)
  rw [Vga.draw_append, Vga.draw_append, Vga.draw_append]
  rw [show x + n - m = x - 1 + n + 1 - m by omega]
  exact hrow

end

/-- A row shows the line from a column on and spaces behind it, and the cursor. -/
structure Shell.Displayed (s : Shell ω) (v : Vga) (r p : Int) : Prop where
  cursorX : v.cursorX = p + s.pos
  cursorY : v.cursorY = r
  text : ∀ i, 0 ≤ i → i < s.len → v.char (r * 80 + (p + i)) = s.inputBuffer i
  blank : ∀ j, p + s.len ≤ j → j ≤ 78 → v.char (r * 80 + j) = 32

section
variable {ω : Type} {s s' : Shell ω} {e : Line} {v : Vga} {r p : Int}

theorem Shell.Holds.printable (h : s.Holds e) (h₀ : 0 ≤ i) (hi : i < s.len) :
    s.inputBuffer i ≠ 10 ∧ s.inputBuffer i ≠ 8 := by
  have hlen := h.len
  have hin : i.toNat < (chars e.text).length := by
    rw [chars, List.length_map]
    omega
  have hbyte := h.begins i.toNat hin
  rw [List.getD_eq_getElem _ _ hin, Int.toNat_of_nonneg h₀] at hbyte
  obtain ⟨c, -, hc⟩ := List.mem_map.1 (List.getElem_mem hin)
  rw [hbyte, ← hc]
  constructor
  · intro heq
    exact absurd (heq ▸ c.2.1) (by decide)
  · intro heq
    exact absurd (heq ▸ c.2.1) (by decide)

theorem Shell.Displayed.row (h : s.Displayed v r p) (hr : r < 25) :
    v.Row r (p + s.pos) fun j => v.char (r * 80 + j) :=
  ⟨h.cursorX, h.cursorY, hr, fun _ _ _ => rfl⟩

/-- What a key leaves on the screen. -/
theorem Shell.Becomes.displayed (hb : s.Becomes buf q l calls s') (hp : 0 ≤ p) (hl : 0 ≤ l)
    (hfit : p + l ≤ 79) (hrow : ((v.draw s.screen).draw calls).Row r (p + q) f)
    (htext : ∀ i, 0 ≤ i → i < l → f (p + i) = buf i)
    (hblank : ∀ j, p + l ≤ j → j ≤ 78 → f j = 32) : s'.Displayed (v.draw s'.screen) r p := by
  obtain ⟨acc, rfl⟩ := hb
  rw [← Vga.draw_append] at hrow
  refine ⟨hrow.cursorX, hrow.cursorY, fun i h₀ hi => ?_, fun j hj hj' => ?_⟩
  · change i < l at hi
    exact (hrow.chars (p + i) (by omega) (by omega)).trans (htext i h₀ hi)
  · change p + l ≤ j at hj
    exact (hrow.chars j (by omega) (by omega)).trans (hblank j hj hj')

theorem Shell.Displayed.leftKey (h : s.Displayed (v.draw s.screen) r p) (hs : s.Holds e)
    (hr : r < 25) (hp : 0 ≤ p) (hfit : p + s.len ≤ 79) :
    s.leftKey.Displayed (v.draw s.leftKey.screen) r p := by
  have hlen := hs.len
  by_cases hpos : 0 < s.pos
  · have hrow := (h.row hr).back (by omega)
    rw [show p + s.pos - 1 = p + (s.pos - 1) by omega] at hrow
    exact (s.leftKey_becomes hpos).displayed hp (by omega) hfit hrow h.text h.blank
  · rw [Shell.leftKey, if_neg hpos]
    exact h

theorem Shell.Displayed.rightKey (h : s.Displayed (v.draw s.screen) r p) (hs : s.Holds e)
    (hr : r < 25) (hp : 0 ≤ p) (hfit : p + s.len ≤ 79) :
    s.rightKey.Displayed (v.draw s.rightKey.screen) r p := by
  have hlen := hs.len
  have hcursor := hs.pos
  by_cases hpos : s.pos < s.len
  · have hrow := (h.row hr).putCells s.inputBuffer s.pos 1 (by omega) (by omega)
      fun j hj hj' => hs.printable (by omega) (by omega)
    rw [Int.add_assoc] at hrow
    refine (s.rightKey_becomes hpos).displayed hp (by omega) hfit hrow (fun i h₀ hi => ?_)
      fun j hj hj' => ?_
    · by_cases hat : i = s.pos
      · rw [if_pos (by omega)]
        congr 1
        omega
      · rw [if_neg (by omega)]
        exact h.text i h₀ hi
    · rw [if_neg (by omega)]
      exact h.blank j hj hj'
  · rw [Shell.rightKey, if_neg hpos]
    exact h

theorem Shell.Displayed.insertKey (h : s.Displayed (v.draw s.screen) r p) (hs : s.Holds e)
    (hr : r < 25) (hp : 0 ≤ p) (c : Printable) (hfit : p + (s.insertKey c.1).len ≤ 79) :
    (s.insertKey c.1).Displayed (v.draw (s.insertKey c.1).screen) r p := by
  have hlen := hs.len
  have hcursor := hs.pos
  have hle := e.cursor_le
  by_cases hcap : s.len < shellBufSize - 1
  · obtain ⟨buf, hbuf, hb⟩ := s.insertKey_becomes c.1 hcap
    have hs' := hs.insertKey c
    have hprintable : ∀ i, 0 ≤ i → i < s.len + 1 → buf i ≠ 10 ∧ buf i ≠ 8 := by
      intro i h₀ hi
      rw [← hb.inputBuffer]
      exact hs'.printable h₀ (by rw [hb.len]; exact hi)
    rw [hb.len] at hfit
    have hrow := (h.row hr).redraw buf s.pos (s.len + 1 - s.pos).toNat
      (s.len + 1 - (s.pos + 1)).toNat (by omega) (by omega) (by omega)
      fun j hj hj' => hprintable j (by omega) (by omega)
    rw [show p + s.pos + (s.len + 1 - s.pos).toNat - (s.len + 1 - (s.pos + 1)).toNat =
      p + (s.pos + 1) by omega] at hrow
    refine hb.displayed hp (by omega) hfit hrow (fun i h₀ hi => ?_) fun j hj hj' => ?_
    · by_cases htail : s.pos ≤ i
      · rw [if_pos (by omega)]
        congr 1
        omega
      · rw [if_neg (by omega), hbuf, Function.update_of_ne (by omega), if_neg (by omega)]
        exact h.text i h₀ (by omega)
    · rw [if_neg (by omega)]
      exact h.blank j (by omega) hj'
  · rw [Shell.insertKey, if_neg hcap]
    exact h

theorem Shell.Displayed.backspaceKey (h : s.Displayed (v.draw s.screen) r p) (hs : s.Holds e)
    (hr : r < 25) (hp : 0 ≤ p) (hfit : p + s.len ≤ 79) :
    s.backspaceKey.Displayed (v.draw s.backspaceKey.screen) r p := by
  have hlen := hs.len
  have hcursor := hs.pos
  have hle := e.cursor_le
  by_cases hpos : 0 < s.pos
  · obtain ⟨buf, hbuf, hb⟩ := s.backspaceKey_becomes hpos
    have hs' := hs.backspaceKey
    have hprintable : ∀ i, 0 ≤ i → i < s.len - 1 → buf i ≠ 10 ∧ buf i ≠ 8 := by
      intro i h₀ hi
      rw [← hb.inputBuffer]
      exact hs'.printable h₀ (by rw [hb.len]; exact hi)
    have hrow := (h.row hr).erase buf (s.pos - 1) (s.len - 1 - (s.pos - 1)).toNat
      (s.len - 1 + 1 - (s.pos - 1)).toNat (by omega) (by omega) (by omega)
      fun j hj hj' => hprintable j (by omega) (by omega)
    rw [show p + s.pos + (s.len - 1 - (s.pos - 1)).toNat - (s.len - 1 + 1 - (s.pos - 1)).toNat =
      p + (s.pos - 1) by omega] at hrow
    refine hb.displayed hp (by omega) (by omega) hrow (fun i h₀ hi => ?_) fun j hj hj' => ?_
    · rw [Function.update_of_ne (by omega)]
      by_cases htail : s.pos - 1 ≤ i
      · rw [if_pos (by omega)]
        congr 1
        omega
      · rw [if_neg (by omega), hbuf, if_neg (by omega)]
        exact h.text i h₀ (by omega)
    · rw [Function.update_apply]
      by_cases hlast : j = p + s.len - 1
      · rw [if_pos (by omega)]
      · rw [if_neg (by omega), if_neg (by omega)]
        exact h.blank j (by omega) hj'
  · rw [Shell.backspaceKey, if_neg hpos]
    exact h

theorem Shell.Displayed.key (h : s.Displayed (v.draw s.screen) r p) (hs : s.Holds e) (hr : r < 25)
    (hp : 0 ≤ p) (hfit : p + s.len ≤ 79) (cmds : ShellCommands ω) (k : Key Printable)
    (hfit' : p + (s.key cmds (keyByte k)).len ≤ 79) :
    (s.key cmds (keyByte k)).Displayed (v.draw (s.key cmds (keyByte k)).screen) r p := by
  cases k with
  | char c =>
    rw [keyByte, Shell.key_char] at hfit' ⊢
    exact h.insertKey hs hr hp c hfit'
  | backspace => exact h.backspaceKey hs hr hp hfit
  | left => exact h.leftKey hs hr hp hfit
  | right => exact h.rightKey hs hr hp hfit

theorem Shell.Displayed.edit (h : s.Displayed (v.draw s.screen) r p) (hs : s.Holds e) (hr : r < 25)
    (hp : 0 ≤ p) (cmds : ShellCommands ω) (keys : List (Key Printable))
    (hfit : ∀ typed, typed <+: keys → p + (s.edit cmds typed).len ≤ 79) :
    (s.edit cmds keys).Displayed (v.draw (s.edit cmds keys).screen) r p := by
  induction keys generalizing s e with
  | nil => exact h
  | cons k keys ih =>
    have hnow := hfit [] (List.nil_prefix)
    have hnext := hfit [k] ⟨keys, rfl⟩
    exact ih (h.key hs hr hp hnow cmds k hnext) (hs.key cmds k)
      fun typed htyped => hfit (k :: typed) (List.cons_prefix_cons.2 ⟨rfl, htyped⟩)

/-- What the shell shows is what it holds, as long as the line ends before the last column. -/
theorem line_display (cmds : ShellCommands ω) (s : Shell ω) (v : Vga) (keys : List (Key Printable))
    (hr : v.cursorY < 25) (hp : 0 ≤ v.cursorX)
    (hblank : ∀ j, v.cursorX ≤ j → j < 80 → v.char (v.cursorY * 80 + j) = 32)
    (hfit : ∀ typed, typed <+: keys → v.cursorX +
      (Shell.edit cmds { s with pos := 0, len := 0, screen := [] } typed).len ≤ 79) :
    let s' := Shell.edit cmds { s with pos := 0, len := 0, screen := [] } keys
    let v' := v.draw s'.screen
    (∀ i, 0 ≤ i → i < s'.len → v'.char (v.cursorY * 80 + (v.cursorX + i)) = s'.inputBuffer i) ∧
      (∀ j, v.cursorX + s'.len ≤ j → j ≤ 78 → v'.char (v.cursorY * 80 + j) = 32) ∧
      v'.cursorX = v.cursorX + s'.pos ∧ v'.cursorY = v.cursorY := by
  intro s' v'
  have hempty : Shell.Holds { s with pos := 0, len := 0, screen := [] } (.empty : Line) :=
    ⟨rfl, rfl, fun i hi => absurd hi (Nat.not_lt_zero i)⟩
  have hstart : Shell.Displayed { s with pos := 0, len := 0, screen := [] } (v.draw []) v.cursorY
      v.cursorX := by
    refine ⟨(Int.add_zero _).symm, rfl, fun i h₀ hi => ?_, fun j hj hj' => ?_⟩
    · exact absurd h₀ (Int.not_le.2 hi)
    · exact hblank j (Int.add_zero v.cursorX ▸ hj) (by omega)
  have h := hstart.edit hempty hr hp cmds keys hfit
  exact ⟨h.text, h.blank, h.cursorX, h.cursorY⟩

/-- A blank screen with the cursor behind a prompt of eight characters. -/
def behindPrompt : Vga := ⟨fun _ => 0x0F20, 8, 0, 0x0F, 0, fun _ => 0, []⟩

/-- `a`, `b`, a step to the left and `c`. -/
def insertionKeys : List (Key Printable) := abLeft ++ [.char ⟨99, by decide⟩]

/-- The `b` behind the inserted `c` is drawn again. -/
theorem line_display_of_insertion :
    let s' := Shell.edit idleCommands { Shell.boot () with pos := 0, len := 0, screen := [] }
      insertionKeys
    let v' := behindPrompt.draw s'.screen
    [v'.char 8, v'.char 9, v'.char 10, v'.char 11] = [97, 99, 98, 32] ∧ v'.cursorX = 10 := by
  intro s' v'
  have hfit : ∀ typed ∈ insertionKeys.inits, (8 : Int) +
      (Shell.edit idleCommands { Shell.boot () with pos := 0, len := 0, screen := [] }
        typed).len ≤ 79 := by decide +kernel
  have hspace : (0x0F20 : UInt16).toUInt8 = 32 := by decide
  obtain ⟨htext, hblank, hcursor, -⟩ := line_display idleCommands (Shell.boot ()) behindPrompt
    insertionKeys (by decide) (by decide) (fun j _ _ => hspace)
    fun typed htyped => hfit typed ((List.mem_inits _ _).2 htyped)
  have hline : s'.len = 3 ∧ s'.pos = 2 ∧ s'.inputBuffer 0 = 97 ∧ s'.inputBuffer 1 = 99 ∧
      s'.inputBuffer 2 = 98 := by decide +kernel
  obtain ⟨hlen, hpos, hfirst, hsecond, hthird⟩ := hline
  have h₀ : v'.char 8 = s'.inputBuffer 0 := htext 0 (by decide) (hlen ▸ by decide)
  have h₁ : v'.char 9 = s'.inputBuffer 1 := htext 1 (by decide) (hlen ▸ by decide)
  have h₂ : v'.char 10 = s'.inputBuffer 2 := htext 2 (by decide) (hlen ▸ by decide)
  have h₃ : v'.char 11 = 32 := hblank 11 (hlen ▸ by decide) (by decide)
  rw [h₀, h₁, h₂, h₃, hfirst, hsecond, hthird]
  exact ⟨rfl, hcursor.trans (hpos ▸ rfl)⟩

end

end KernelCustom
