import KernelCustom.Terminal
import Mathlib.Tactic.Ring

namespace KernelCustom
open Terminal
set_option autoImplicit true

/-- The text screen: the cells at `VGA_ADDRESS`, the static variables of the driver, the registers
of the controller behind the ports `0x3D4` and `0x3D5`, and the indices that were written. -/
structure Vga where
  cell : Int → UInt16
  cursorX : Int
  cursorY : Int
  gCurrentColor : UInt8
  crtcIndex : UInt8
  crtc : UInt8 → UInt8
  writes : List Int

/-- `(g_current_color << 8) | c`, where `c` is a signed `char`. -/
def colored (color c : UInt8) : UInt16 := (color.toUInt16 <<< 8) ||| c.toInt8.toInt16.toUInt16

def Vga.write (v : Vga) (i : Int) (w : UInt16) : Vga :=
  { v with cell := Function.update v.cell i w, writes := v.writes ++ [i] }

def Vga.outb (v : Vga) (port : UInt16) (val : UInt8) : Vga :=
  if port = 0x3D4 then { v with crtcIndex := val }
  else if port = 0x3D5 then { v with crtc := Function.update v.crtc v.crtcIndex val }
  else v

def Vga.vgaSetColor (v : Vga) (fg bg : UInt8) : Vga :=
  { v with gCurrentColor := (bg <<< 4) ||| (fg &&& 0x0F) }

def Vga.vgaResetColor (v : Vga) : Vga := { v with gCurrentColor := 0x0F }

def Vga.vgaUpdateCursor (v : Vga) : Vga :=
  let pos := UInt16.ofInt (v.cursorY * 80 + v.cursorX)
  let v := (v.outb 0x3D4 0x0F).outb 0x3D5 (pos &&& 0xFF).toUInt8
  (v.outb 0x3D4 0x0E).outb 0x3D5 ((pos >>> 8) &&& 0xFF).toUInt8

/-- `video_mem[i] = video_mem[i + VGA_WIDTH]` for that many cells from `i` on. -/
def Vga.copyUp : Nat → Int → Vga → Vga
  | 0, _, v => v
  | n + 1, i, v => copyUp n (i + 1) (v.write i (v.cell (i + 80)))

/-- Spaces in that many cells from `i` on. -/
def Vga.blank : Nat → Int → Vga → Vga
  | 0, _, v => v
  | n + 1, i, v => blank n (i + 1) (v.write i (colored v.gCurrentColor 32))

def Vga.vgaScroll (v : Vga) : Vga :=
  { (v.copyUp 1920 0).blank 80 1920 with cursorY := 24 }

def Vga.clearScreen (v : Vga) : Vga :=
  Vga.vgaUpdateCursor { v.blank 2000 0 with cursorX := 0, cursorY := 0 }

/-- What `vga_putc` does before it looks whether the screen is full. -/
def Vga.place (v : Vga) (c : UInt8) : Vga :=
  if c = 10 then { v with cursorX := 0, cursorY := v.cursorY + 1 }
  else if c = 8 then if 0 < v.cursorX then { v with cursorX := v.cursorX - 1 } else v
  else
    let v := v.write (v.cursorY * 80 + v.cursorX) (colored v.gCurrentColor c)
    let v := { v with cursorX := v.cursorX + 1 }
    if 80 ≤ v.cursorX then { v with cursorX := 0, cursorY := v.cursorY + 1 } else v

def Vga.scrollWhenFull (v : Vga) : Vga := if 25 ≤ v.cursorY then v.vgaScroll else v

def Vga.vgaPutc (v : Vga) (c : UInt8) : Vga := (v.place c).scrollWhenFull.vgaUpdateCursor

/-- The calls that other modules make. -/
inductive ScreenCall where
  | putc (c : UInt8)
  | setColor (fg bg : UInt8)
  | resetColor
  | clearScreen

def Vga.call (v : Vga) : ScreenCall → Vga
  | .putc c => v.vgaPutc c
  | .setColor fg bg => v.vgaSetColor fg bg
  | .resetColor => v.vgaResetColor
  | .clearScreen => v.clearScreen

/-- The position at which the controller shows the cursor. -/
def Vga.hardwareCursor (v : Vga) : Nat := (v.crtc 0x0E).toNat * 256 + (v.crtc 0x0F).toNat

/-- The character that a cell shows. -/
def Vga.char (v : Vga) (i : Int) : UInt8 := (v.cell i).toUInt8

theorem colored_toUInt8 (color c : UInt8) : (colored color c).toUInt8 = c := by
  have hshift : (color.toUInt16 <<< 8).toUInt8 = 0 := by
    apply UInt8.toNat_inj.1
    simp [Nat.shiftLeft_eq]
  have hc : c.toInt8.toInt16.toUInt16.toUInt8 = c := by
    rw [← UInt8.toBitVec_inj]
    change (c.toBitVec.signExtend 16).setWidth 8 = c.toBitVec
    ext i hi
    simp [BitVec.getElem_signExtend, hi, show i < 16 by omega]
  rw [colored, UInt16.toUInt8_or, hshift, hc, UInt8.zero_or]

theorem Vga.cell_write (v : Vga) (i : Int) (w : UInt16) (j : Int) :
    (v.write i w).cell j = if j = i then w else v.cell j := Function.update_apply ..

theorem Vga.char_write (v : Vga) (i : Int) (w : UInt16) (j : Int) :
    (v.write i w).char j = if j = i then w.toUInt8 else v.char j := by
  rw [Vga.char, Vga.cell_write]
  split
  · rfl
  · rfl

/-- Steps that change nothing but cells of the screen. -/
def Vga.Draws (v v' : Vga) : Prop :=
  v' = { v with cell := v'.cell, writes := v'.writes } ∧
    ∀ i ∈ v'.writes, i ∈ v.writes ∨ 0 ≤ i ∧ i < 2000

theorem Vga.Draws.refl (v : Vga) : v.Draws v := ⟨rfl, fun _ => .inl⟩

theorem Vga.Draws.trans {v v₁ v₂ : Vga} (h : v.Draws v₁) (h' : v₁.Draws v₂) : v.Draws v₂ := by
  refine ⟨?_, fun i hi => ?_⟩
  · rw [h'.1, h.1]
  · rcases h'.2 i hi with hi | hi
    · exact h.2 i hi
    · exact .inr hi

theorem Vga.Draws.write (v : Vga) (w : UInt16) (h₀ : 0 ≤ i) (h : i < 2000) :
    v.Draws (v.write i w) := by
  refine ⟨rfl, fun j hj => ?_⟩
  rcases List.mem_append.1 hj with hj | hj
  · exact .inl hj
  · rw [List.mem_singleton.1 hj]
    exact .inr ⟨h₀, h⟩

theorem Vga.Draws.copyUp (v : Vga) {n : Nat} {i : Int} (h₀ : 0 ≤ i) (h : i + n ≤ 2000) :
    v.Draws (v.copyUp n i) := by
  induction n generalizing i v with
  | zero => exact .refl v
  | succ n ih =>
    exact (Vga.Draws.write v _ h₀ (by omega)).trans (ih _ (by omega) (by omega))

theorem Vga.Draws.blank (v : Vga) {n : Nat} {i : Int} (h₀ : 0 ≤ i) (h : i + n ≤ 2000) :
    v.Draws (v.blank n i) := by
  induction n generalizing i v with
  | zero => exact .refl v
  | succ n ih =>
    exact (Vga.Draws.write v _ h₀ (by omega)).trans (ih _ (by omega) (by omega))

/-- The copy reads ahead of what it has written. -/
theorem Vga.cell_copyUp (v : Vga) (n : Nat) (i j : Int) :
    (v.copyUp n i).cell j = if i ≤ j ∧ j < i + n then v.cell (j + 80) else v.cell j := by
  induction n generalizing i v with
  | zero => rw [if_neg (by omega), Vga.copyUp]
  | succ n ih =>
    rw [Vga.copyUp, ih, Vga.cell_write, Vga.cell_write]
    by_cases hj : j = i
    · rw [if_neg (by omega), if_pos hj, if_pos (by omega), hj]
    · rw [if_neg hj]
      by_cases hin : i + 1 ≤ j ∧ j < i + 1 + n
      · rw [if_pos hin, if_neg (by omega), if_pos (by omega)]
      · rw [if_neg hin, if_neg (by omega)]

theorem Vga.cell_blank (v : Vga) (n : Nat) (i j : Int) :
    (v.blank n i).cell j =
      if i ≤ j ∧ j < i + n then colored v.gCurrentColor 32 else v.cell j := by
  induction n generalizing i v with
  | zero => rw [if_neg (by omega), Vga.blank]
  | succ n ih =>
    rw [Vga.blank, ih, Vga.cell_write]
    by_cases hj : j = i
    · rw [if_neg (by omega), if_pos hj, if_pos (by omega)]
    · rw [if_neg hj]
      by_cases hin : i + 1 ≤ j ∧ j < i + 1 + n
      · rw [if_pos hin, if_pos (by omega)]
        rfl
      · rw [if_neg hin, if_neg (by omega)]

theorem Vga.vgaScroll_spec (v : Vga) : ∃ v', v.Draws v' ∧ v.vgaScroll = { v' with cursorY := 24 } ∧
    ∀ j, v'.cell j = if 1920 ≤ j ∧ j < 2000 then colored v.gCurrentColor 32
      else if 0 ≤ j ∧ j < 1920 then v.cell (j + 80) else v.cell j := by
  have hcopy := Vga.Draws.copyUp v (n := 1920) (i := 0) (by omega) (by omega)
  refine ⟨(v.copyUp 1920 0).blank 80 1920, ?_, rfl, fun j => ?_⟩
  · exact hcopy.trans (Vga.Draws.blank _ (by omega) (by omega))
  · have hcolor : (v.copyUp 1920 0).gCurrentColor = v.gCurrentColor := by rw [hcopy.1]
    rw [Vga.cell_blank, Vga.cell_copyUp, hcolor]
    rfl

theorem Vga.clearScreen_spec (v : Vga) : ∃ v', v.Draws v' ∧
    v.clearScreen = Vga.vgaUpdateCursor { v' with cursorX := 0, cursorY := 0 } ∧
    ∀ j, v'.cell j = if 0 ≤ j ∧ j < 2000 then colored v.gCurrentColor 32 else v.cell j := by
  refine ⟨v.blank 2000 0, Vga.Draws.blank v (by omega) (by omega), rfl, fun j => ?_⟩
  rw [Vga.cell_blank]
  rfl

theorem Vga.scrollWhenFull_eq {v : Vga} (h : v.cursorY < 25) : v.scrollWhenFull = v := by
  rw [Vga.scrollWhenFull, if_neg (by omega)]

section
variable {α : Type} {b a : α} {R : α → UInt16 → Prop} {v : Vga} {t : Screen 80 b}

/-- The screen shows the end of a terminal on which some kind of characters stands for the cells. -/
structure Vga.Mirrors (R : α → UInt16 → Prop) (v : Vga) (t : Screen 80 b) : Prop where
  cursorX : v.cursorX = t.col
  cursorY : v.cursorY = t.cursorRow 25
  cells : ∀ y x : Nat, y < 25 → x < 80 → R (t.window 25 y x) (v.cell (y * 80 + x))
  writes : ∀ i ∈ v.writes, 0 ≤ i ∧ i < 2000

/-- What a call does to the terminal, on which `vga_putc` writes `a`. -/
def ScreenCall.draw (a : α) : ScreenCall → Screen 80 b → Screen 80 b
  | .putc c, t => if c = 10 then t.newline else if c = 8 then t.back else t.put a
  | .clearScreen, _ => Screen.cleared (by decide)
  | _, t => t

theorem Vga.Mirrors.mono {R' : α → UInt16 → Prop} (h : v.Mirrors R t)
    (hR : ∀ a w, R a w → R' a w) : v.Mirrors R' t :=
  ⟨h.cursorX, h.cursorY, fun y x hy hx => hR _ _ (h.cells y x hy hx), h.writes⟩

theorem Vga.Mirrors.cursorY_lt (h : v.Mirrors R t) : v.cursorY < 25 := by
  have hrow := t.cursorRow_lt (by decide : 0 < 25)
  have hy := h.cursorY
  omega

theorem Vga.Mirrors.updateCursor (h : v.Mirrors R t) : v.vgaUpdateCursor.Mirrors R t :=
  ⟨h.cursorX, h.cursorY, h.cells, h.writes⟩

theorem Vga.Mirrors.write (h : v.Mirrors R t) (ha : R a w) :
    (v.write (v.cursorY * 80 + v.cursorX) w).Mirrors R (t.write a) := by
  have hrow := t.cursorRow_lt (by decide : 0 < 25)
  have hcol := t.col_lt
  have hx := h.cursorX
  have hy := h.cursorY
  refine ⟨hx, hy, fun y x hy' hx' => ?_, fun i hi => ?_⟩
  · rw [Vga.cell_write, t.window_write (by decide)]
    by_cases hcell : y = t.cursorRow 25 ∧ x = t.col
    · rw [if_pos hcell, if_pos (by omega)]
      exact ha
    · rw [if_neg hcell, if_neg (by omega)]
      exact h.cells y x hy' hx'
  · rcases (Vga.Draws.write v w (by omega) (by omega)).2 i hi with hi | hi
    · exact h.writes i hi
    · exact hi

/-- A new row, which scrolls a full screen. -/
theorem Vga.Mirrors.newline (h : v.Mirrors R t) (hb : ∀ color, R b (colored color 32)) :
    (Vga.scrollWhenFull { v with cursorX := 0, cursorY := v.cursorY + 1 }).Mirrors R
      t.newline := by
  have hy := h.cursorY
  have hrow := t.cursorRow_lt (by decide : 0 < 25)
  by_cases hroom : t.cursorRow 25 + 1 < 25
  · obtain ⟨hwindow, hcursor⟩ := t.window_newline_of_room hroom
    rw [Vga.scrollWhenFull, if_neg (by change ¬ (25 : Int) ≤ v.cursorY + 1; omega)]
    refine ⟨rfl, ?_, fun y x hy' hx' => ?_, h.writes⟩
    · rw [hcursor, hy]
      rfl
    · rw [hwindow]
      exact h.cells y x hy' hx'
  · have hlast : t.cursorRow 25 + 1 = 25 := by omega
    rw [Vga.scrollWhenFull, if_pos (by change (25 : Int) ≤ v.cursorY + 1; omega)]
    set w : Vga := { v with cursorX := 0, cursorY := v.cursorY + 1 } with hw
    obtain ⟨w', hdraws, hscroll, hcell⟩ := w.vgaScroll_spec
    rw [hscroll]
    refine ⟨?_, ?_, fun y x hy' hx' => ?_, fun i hi => ?_⟩
    · change w'.cursorX = 0
      rw [hdraws.1]
    · change (24 : Int) = _
      rw [(t.window_newline_of_last hlast 0 0).2]
      omega
    · change R _ (w'.cell _)
      rw [hcell, (t.window_newline_of_last hlast y x).1]
      by_cases hbottom : y + 1 < 25
      · have hup : (y : Int) * 80 + x + 80 = ((y + 1 : Nat) : Int) * 80 + x := by
          push_cast
          ring
        rw [if_pos hbottom, if_neg (by omega), if_pos (by omega), hup]
        exact h.cells (y + 1) x hbottom hx'
      · rw [if_neg hbottom, if_pos (by omega)]
        exact hb _
    · rcases hdraws.2 i hi with hi | hi
      · exact h.writes i hi
      · exact hi

theorem Vga.Mirrors.putc (h : v.Mirrors R t) (hb : ∀ color, R b (colored color 32))
    (ha : R a (colored v.gCurrentColor c)) :
    (v.vgaPutc c).Mirrors R (ScreenCall.draw a (.putc c) t) := by
  refine Vga.Mirrors.updateCursor ?_
  have hx := h.cursorX
  by_cases hnewline : c = 10
  · rw [Vga.place, if_pos hnewline, ScreenCall.draw, if_pos hnewline]
    exact h.newline hb
  by_cases hback : c = 8
  · rw [Vga.place, if_neg hnewline, if_pos hback, ScreenCall.draw, if_neg hnewline, if_pos hback]
    have hmoved : (if 0 < v.cursorX then { v with cursorX := v.cursorX - 1 } else v).Mirrors R
        t.back := by
      split
      · exact ⟨by change v.cursorX - 1 = ((t.col - 1 : Nat) : Int); omega, h.cursorY, h.cells,
          h.writes⟩
      · exact ⟨by change v.cursorX = ((t.col - 1 : Nat) : Int); omega, h.cursorY, h.cells,
          h.writes⟩
    rw [Vga.scrollWhenFull_eq hmoved.cursorY_lt]
    exact hmoved
  have hwrite := h.write ha
  rw [Vga.place, if_neg hnewline, if_neg hback, ScreenCall.draw, if_neg hnewline, if_neg hback,
    Screen.put]
  by_cases hroom : t.col + 1 < 80
  · rw [dif_pos hroom, if_neg (by change ¬ (80 : Int) ≤ v.cursorX + 1; omega)]
    have hmoved : Vga.Mirrors R
        { v.write (v.cursorY * 80 + v.cursorX) (colored v.gCurrentColor c) with
          cursorX := v.cursorX + 1 }
        { t.write a with col := t.col + 1, col_lt := hroom } :=
      ⟨by change v.cursorX + 1 = ((t.col + 1 : Nat) : Int); omega, hwrite.cursorY, hwrite.cells,
        hwrite.writes⟩
    exact (Vga.scrollWhenFull_eq hmoved.cursorY_lt).symm ▸ hmoved
  · rw [dif_neg hroom, if_pos (by change (80 : Int) ≤ v.cursorX + 1; omega)]
    exact hwrite.newline hb

theorem Vga.mirrors_clearScreen (v : Vga) (h : ∀ i ∈ v.writes, 0 ≤ i ∧ i < 2000)
    (hb : ∀ color, R b (colored color 32)) :
    v.clearScreen.Mirrors R (Screen.cleared (by decide) : Screen 80 b) := by
  obtain ⟨v', hdraws, hclear, hcell⟩ := v.clearScreen_spec
  rw [hclear]
  refine ⟨rfl, rfl, fun y x hy hx => ?_, fun i hi => ?_⟩
  · change R b (v'.cell _)
    rw [hcell, if_pos (by omega)]
    exact hb _
  · rcases hdraws.2 i hi with hi | hi
    · exact h i hi
    · exact hi

/-- One call, where `a` stands for the cell that `vga_putc` writes. -/
theorem Vga.Mirrors.call (h : v.Mirrors R t) (hb : ∀ color, R b (colored color 32))
    (call : ScreenCall) (ha : ∀ c, call = .putc c → R a (colored v.gCurrentColor c)) :
    (v.call call).Mirrors R (call.draw a t) := by
  cases call with
  | putc c => exact h.putc hb (ha c rfl)
  | setColor fg bg => exact ⟨h.cursorX, h.cursorY, h.cells, h.writes⟩
  | resetColor => exact ⟨h.cursorX, h.cursorY, h.cells, h.writes⟩
  | clearScreen => exact Vga.mirrors_clearScreen v h.writes hb

end

/-- The text page that a program sees the last 25 rows of. -/
abbrev TextPage := Screen 80 (32 : UInt8)

/-- The screen shows the end of a terminal. -/
structure Vga.Shows (v : Vga) (t : TextPage) : Prop where
  cursorX : v.cursorX = t.col
  cursorY : v.cursorY = t.cursorRow 25
  chars : ∀ y x : Nat, y < 25 → x < 80 → v.char (y * 80 + x) = t.window 25 y x
  writes : ∀ i ∈ v.writes, 0 ≤ i ∧ i < 2000

/-- Between two calls the controller knows where the cursor is. -/
structure Vga.Settled (v : Vga) (t : TextPage) : Prop extends v.Shows t where
  hardware : v.hardwareCursor = t.cursorRow 25 * 80 + t.col

/-- A cell shows a character. -/
def ShowsChar (c : UInt8) (w : UInt16) : Prop := w.toUInt8 = c

theorem Vga.shows_iff_mirrors {v : Vga} : v.Shows t ↔ v.Mirrors ShowsChar t :=
  ⟨fun h => ⟨h.cursorX, h.cursorY, h.chars, h.writes⟩,
    fun h => ⟨h.cursorX, h.cursorY, h.cells, h.writes⟩⟩

theorem Vga.hardwareCursor_vgaUpdateCursor (v : Vga) :
    v.vgaUpdateCursor.hardwareCursor = (UInt16.ofInt (v.cursorY * 80 + v.cursorX)).toNat := by
  have h := (UInt16.ofInt (v.cursorY * 80 + v.cursorX)).toNat_lt
  simp only [Vga.hardwareCursor, Vga.vgaUpdateCursor, Vga.outb]
  simp [Nat.shiftRight_eq_div_pow, Nat.and_two_pow_sub_one_eq_mod _ 8]
  omega

theorem Vga.Shows.settled {v : Vga} (h : v.vgaUpdateCursor.Shows t) :
    v.vgaUpdateCursor.Settled t := by
  refine ⟨h, ?_⟩
  have hcol := t.col_lt
  have hrow := t.cursorRow_lt (by decide : 0 < 25)
  have hx : v.cursorX = t.col := h.cursorX
  have hy : v.cursorY = t.cursorRow 25 := h.cursorY
  rw [Vga.hardwareCursor_vgaUpdateCursor, hx, hy]
  simp only [UInt16.ofInt, UInt16.toNat_ofNat']
  omega

/-- The terminal after a call. -/
def ScreenCall.reference : ScreenCall → TextPage → TextPage
  | .putc c, t => if c = 10 then t.newline else if c = 8 then t.back else t.put c
  | .clearScreen, _ => Screen.cleared (by decide)
  | _, t => t

theorem showsChar_colored (color c : UInt8) : ShowsChar c (colored color c) :=
  colored_toUInt8 color c

theorem Vga.clearScreen_settled (v : Vga) (h : ∀ i ∈ v.writes, 0 ≤ i ∧ i < 2000) :
    v.clearScreen.Settled (Screen.cleared (by decide)) :=
  Vga.Shows.settled (Vga.shows_iff_mirrors.2
    (Vga.mirrors_clearScreen v h fun color => showsChar_colored color 32))

theorem Vga.Settled.call {v : Vga} (h : v.Settled t) (c : ScreenCall) :
    (v.call c).Settled (c.reference t) := by
  cases c with
  | putc c =>
    have hput := (Vga.shows_iff_mirrors.1 h.toShows).putc (fun color => showsChar_colored color 32)
      (showsChar_colored v.gCurrentColor c)
    exact Vga.Shows.settled (Vga.shows_iff_mirrors.2 hput)
  | setColor fg bg => exact ⟨⟨h.cursorX, h.cursorY, h.chars, h.writes⟩, h.hardware⟩
  | resetColor => exact ⟨⟨h.cursorX, h.cursorY, h.chars, h.writes⟩, h.hardware⟩
  | clearScreen => exact Vga.clearScreen_settled v h.writes

theorem Vga.Settled.calls {v : Vga} (h : v.Settled t) (calls : List ScreenCall) :
    (calls.foldl Vga.call v).Settled (calls.foldl (fun t c => c.reference t) t) := by
  induction calls generalizing v t with
  | nil => exact h
  | cons c calls ih => exact ih (h.call c)

/-- From a cleared screen on, the text screen shows the last 25 rows of a terminal that forgets
nothing, and its cursor. -/
theorem screen_refines_terminal (v : Vga) (calls : List ScreenCall) :
    let v' := calls.foldl Vga.call (Vga.clearScreen { v with writes := [] })
    let t := calls.foldl (fun t c => ScreenCall.reference c t) (Screen.cleared (by decide))
    (0 ≤ v'.cursorX ∧ v'.cursorX < 80) ∧ (0 ≤ v'.cursorY ∧ v'.cursorY < 25) ∧
      (∀ i ∈ v'.writes, 0 ≤ i ∧ i < 2000) ∧
      v'.cursorX = t.col ∧ v'.cursorY = t.cursorRow 25 ∧
      v'.hardwareCursor = t.cursorRow 25 * 80 + t.col ∧
      ∀ y x : Nat, y < 25 → x < 80 → (v'.cell (y * 80 + x)).toUInt8 = t.window 25 y x := by
  intro v' t
  have h : v'.Settled t :=
    (Vga.clearScreen_settled _ fun i hi => absurd hi List.not_mem_nil).calls calls
  have hcol := t.col_lt
  have hrow := t.cursorRow_lt (by decide : 0 < 25)
  have hx := h.cursorX
  have hy := h.cursorY
  exact ⟨by omega, by omega, h.writes, hx, hy, h.hardware, h.chars⟩

end KernelCustom
