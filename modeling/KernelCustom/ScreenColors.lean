import KernelCustom.Vga
import KernelCustom.Runs

namespace KernelCustom
open Terminal Runs
set_option autoImplicit true

/-- The attribute byte of a cell. -/
def attributeOf (w : UInt16) : UInt8 := (w >>> 8).toUInt8

/-- What `vga_putc` was called with when it wrote a cell. -/
structure WrittenCell where
  color : UInt8
  char : UInt8

/-- The screen, and a terminal that remembers of each cell the call that wrote it. -/
structure ColorRun where
  vga : Vga
  origin : Screen 80 (none : Option WrittenCell)

def ScreenCall.written (color : UInt8) : ScreenCall → Option WrittenCell
  | .putc c => some ⟨color, c⟩
  | _ => none

def ColorRun.call (s : ColorRun) (c : ScreenCall) : ColorRun :=
  ⟨s.vga.call c, c.draw (c.written s.vga.gCurrentColor) s.origin⟩

/-- The driver before its first call: nothing has been written. -/
def ColorRun.start (v : Vga) : ColorRun :=
  ⟨{ v with cursorX := 0, cursorY := 0, writes := [] }, Screen.cleared (Nat.succ_pos 79)⟩

/-- Every cell that `vga_putc` wrote has the colour of that call. -/
def ColorRun.Kept (s : ColorRun) : Prop :=
  ∀ y x : Nat, y < 25 → x < 80 → ∀ p, s.origin.window 25 y x = some p →
    attributeOf (s.vga.cell (y * 80 + x)) = p.color

/-- The character has no sign bit, or the colour is all ones anyway. -/
def ColorRun.Plain (s : ColorRun) : ScreenCall → Prop
  | .putc c => c < 0x80 ∨ s.vga.gCurrentColor = 0xFF
  | _ => True

/-- The sign bits of the character are or-ed into the attribute. -/
theorem attributeOf_colored (color c : UInt8) :
    attributeOf (colored color c) = if c < 0x80 then color else 0xFF := by
  rw [attributeOf, colored, ← UInt8.toBitVec_inj]
  change (((color.toBitVec.setWidth 16 <<< 8) ||| c.toBitVec.signExtend 16) >>> 8).setWidth 8 = _
  have hlt : c < 0x80 ↔ c.toBitVec.msb = false := by
    rw [BitVec.msb_eq_decide, decide_eq_false_iff_not, UInt8.lt_iff_toNat_lt]
    exact Nat.not_le.symm
  ext i hi
  have hi₁ : 8 + i < 16 := by omega
  have hi₂ : ¬ 8 + i < 8 := by omega
  have hbit : ((((color.toBitVec.setWidth 16 <<< 8) ||| c.toBitVec.signExtend 16) >>> 8).setWidth
      8)[i] = (color.toBitVec[i] || c.toBitVec.msb) := by
    simp [BitVec.getElem_signExtend, hi, hi₁, hi₂, show i < 16 by omega]
  rw [hbit]
  by_cases hc : c < 0x80
  · rw [if_pos hc, hlt.1 hc, Bool.or_false]
  · have hmsb : c.toBitVec.msb = true := by
      rw [hlt, Bool.not_eq_false] at hc
      exact hc
    have hones : (0xFF : UInt8).toBitVec = BitVec.allOnes 8 := rfl
    rw [if_neg hc, hmsb, Bool.or_true, hones, BitVec.getElem_allOnes]

theorem attributeOf_colored_iff (color c : UInt8) :
    attributeOf (colored color c) = color ↔ c < 0x80 ∨ color = 0xFF := by
  rw [attributeOf_colored]
  split
  · next hc => exact iff_of_true rfl (.inl hc)
  · next hc => exact ⟨fun h => .inr h.symm, fun h => (h.resolve_left hc).symm⟩

/-- A cell is as the call that wrote it made it. -/
def MadeBy (a : Option WrittenCell) (w : UInt16) : Prop :=
  ∀ p, a = some p → w = colored p.color p.char

/-- Its attribute is the colour of the call too. -/
def ColoredBy (a : Option WrittenCell) (w : UInt16) : Prop :=
  ∀ p, a = some p → w = colored p.color p.char ∧ attributeOf w = p.color

theorem ColoredBy.madeBy (h : ColoredBy a w) : MadeBy a w := fun p hp => (h p hp).1

theorem coloredBy_none (w : UInt16) : ColoredBy none w := by
  intro p hp
  cases hp

theorem ColorRun.kept_of_mirrors {s : ColorRun} (h : s.vga.Mirrors ColoredBy s.origin) :
    s.Kept := fun y x hy hx p hp => (h.cells y x hy hx p hp).2

/-- A call that is plain keeps every colour. -/
theorem ColorRun.mirrors_call {s : ColorRun} (h : s.vga.Mirrors ColoredBy s.origin)
    (hplain : s.Plain c) : (s.call c).vga.Mirrors ColoredBy (s.call c).origin := by
  refine h.call (fun color => coloredBy_none _) c ?_
  rintro ch rfl p ⟨⟩
  exact ⟨rfl, (attributeOf_colored_iff _ _).2 hplain⟩

/-- Any other call writes a cell with another attribute. -/
theorem ColorRun.plain_of_kept {s : ColorRun} (h : s.vga.Mirrors ColoredBy s.origin)
    (hkept : (s.call c).Kept) : s.Plain c := by
  cases c with
  | putc c =>
    by_cases hnewline : c = 10
    · exact .inl (by rw [hnewline]; decide)
    by_cases hback : c = 8
    · exact .inl (by rw [hback]; decide)
    have hmade : (s.call (.putc c)).vga.Mirrors MadeBy (s.call (.putc c)).origin := by
      have hbefore : s.vga.Mirrors MadeBy s.origin := h.mono fun _ _ => ColoredBy.madeBy
      refine hbefore.call (a := some ⟨s.vga.gCurrentColor, c⟩)
        (fun color => (coloredBy_none _).madeBy) (.putc c) ?_
      rintro ch ⟨⟩ p ⟨⟩
      rfl
    obtain ⟨y, x, hy, hx, hwindow⟩ :=
      s.origin.exists_window_put (by decide : 1 < 25) (some ⟨s.vga.gCurrentColor, c⟩)
    have hdraw : (s.call (.putc c)).origin = s.origin.put (some ⟨s.vga.gCurrentColor, c⟩) := by
      rw [ColorRun.call, ScreenCall.draw, if_neg hnewline, if_neg hback, ScreenCall.written]
    rw [← hdraw] at hwindow
    have hcolor := hkept y x hy hx _ hwindow
    rw [hmade.cells y x hy hx _ hwindow] at hcolor
    exact (attributeOf_colored_iff _ _).1 hcolor
  | setColor fg bg => trivial
  | resetColor => trivial
  | clearScreen => trivial

/-- In every run of the driver, the cells keep the colours of the calls that wrote them exactly when
every character written is below `0x80` or is written with colour `0xFF`. -/
theorem colors_kept_iff (v : Vga) (calls : List ScreenCall) :
    Throughout ColorRun.call ColorRun.Kept (.start v) calls ↔
      EachStep ColorRun.call ColorRun.Plain (.start v) calls := by
  have hstart : (ColorRun.start v).vga.Mirrors ColoredBy (ColorRun.start v).origin :=
    ⟨rfl, rfl, fun _ _ _ _ => coloredBy_none _, fun i hi => absurd hi List.not_mem_nil⟩
  apply throughout_iff_eachStep (I := fun s => s.vga.Mirrors ColoredBy s.origin) _ _ _ hstart
  · exact fun s => ColorRun.kept_of_mirrors
  · exact fun s c h => ⟨ColorRun.mirrors_call h, ColorRun.plain_of_kept h⟩

/-- A character with its sign bit set, on the cleared black and white screen. -/
theorem sign_bit_changes_color :
    ¬ ∀ (v : Vga) (calls : List ScreenCall),
      Throughout ColorRun.call ColorRun.Kept (.start v) calls := by
  intro hall
  obtain ⟨-, hkept⟩ := hall ⟨fun _ => 0, 0, 0, 0x0F, 0, fun _ => 0, []⟩ [.putc 0x80]
  have hcell := hkept 0 0 (by decide) (by decide) ⟨0x0F, 0x80⟩ rfl
  exact absurd hcell (by decide)

end KernelCustom
