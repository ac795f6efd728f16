import KernelCustom.ReadLine
import KernelCustom.LineEditor

namespace KernelCustom
open CString LoggedArray LineEditor
set_option autoImplicit true

/-- What a key means to the user of the shell. -/
def recallKey (c : UInt8) : RecallKey UInt8 :=
  if c = 0x1B then .ignored
  else if c = 0x11 then .previous
  else if c = 0x12 then .next
  else if c = 0x13 then .edit .left
  else if c = 0x14 then .edit .right
  else if c = 0x0C then .ignored
  else if c = 8 then .edit .backspace
  else .edit (.char c)

/-- What `read_line` makes of it: the key for a step to the right goes to the end of the line. -/
def readKey (lines : List (List UInt8)) (s : Recall UInt8 255) (c : UInt8) : Recall UInt8 255 :=
  if c = 0x14 then { s with editor := s.editor.toEnd } else s.key lines (recallKey c)

/-- The variables of `read_line` stand for an editor with a history. -/
structure ReadLine.Stands (lines : List (List UInt8)) (r : ReadLine) (s : Recall UInt8 255) :
    Prop where
  pos : r.pos = s.editor.cursor
  len : r.len = s.editor.text.length
  begins : Begins r.buf.bytes s.editor.text
  no_nul : 0 ∉ s.editor.text
  idx : r.histIdx = s.index
  idx_le : s.index ≤ lines.length
  within : r.buf.Within 256

/-- The rows of a history hold some lines, each with room for its NUL. -/
structure HistoryOf (h : History) (lines : List (List UInt8)) : Prop where
  lists : Lists h.rows h.count lines
  short : ∀ l ∈ lines, l.length ≤ 255

section
variable {e : Environment} {h : History} {lines : List (List UInt8)} {r : ReadLine}
  {s : Recall UInt8 255}

/-- What is printed does not matter. -/
theorem ReadLine.Stands.printed (hs : r.Stands lines s) (out : List UserCall) :
    ReadLine.Stands lines { r with output := out } s :=
  ⟨hs.pos, hs.len, hs.begins, hs.no_nul, hs.idx, hs.idx_le, hs.within⟩

theorem ReadLine.Stands.load (hs : r.buf.Within 256) (hh : HistoryOf h lines)
    (hidx : r.histIdx = (i : Nat)) (hi : i < lines.length) :
    (r.load h).Stands lines ⟨.ofText lines[i], i⟩ := by
  have hshort := hh.short _ (List.getElem_mem hi)
  have hrow := hh.lists.row i hi
  rw [← hidx] at hrow
  have hcopy : Spells (r.buf.copy (h.rows r.histIdx)).bytes lines[i] := hrow.strcpy _
  have htext : (Editor.ofText lines[i] : Editor UInt8 255).text = lines[i] :=
    Editor.ofText_text hshort
  have hcursor : (Editor.ofText lines[i] : Editor UInt8 255).cursor = lines[i].length :=
    Editor.ofText_cursor hshort
  have hlength : ((arrayLength (r.buf.copy (h.rows r.histIdx)).measure.bytes : Nat) : Int) =
      lines[i].length := congrArg Nat.cast hcopy.length
  refine ReadLine.Stands.printed ⟨?_, ?_, ?_, ?_, hidx, Nat.le_of_lt hi, ?_⟩ _
  · dsimp only
    rw [hcursor]
    exact hlength
  · dsimp only
    rw [htext]
    exact hlength
  · dsimp only
    rw [htext]
    exact hcopy.begins
  · dsimp only
    rw [htext]
    exact hrow.no_nul
  · exact hs.load hrow (by omega)

theorem ReadLine.Stands.upKey (hs : r.Stands lines s) (hh : HistoryOf h lines) :
    (r.upKey h).Stands lines (s.key lines .previous) := by
  have hidx := hs.idx
  have hle := hs.idx_le
  rw [ReadLine.upKey, Recall.key]
  by_cases hpos : 0 < s.index
  · have hi : s.index - 1 < lines.length := by omega
    rw [if_pos (by omega), if_pos hpos, List.getD_eq_getElem _ _ hi]
    refine ReadLine.Stands.load (r := ReadLine.backspaceN { r with histIdx := r.histIdx - 1 } r.len)
      hs.within hh ?_ hi
    change r.histIdx - 1 = _
    omega
  · rw [if_neg (by omega), if_neg hpos]
    exact hs

theorem ReadLine.Stands.downKey (hs : r.Stands lines s) (hh : HistoryOf h lines) :
    (r.downKey h).Stands lines (s.key lines .next) := by
  have hidx := hs.idx
  have hsize := hh.lists.size
  simp only [ReadLine.downKey, Recall.key]
  by_cases hlt : s.index < lines.length
  · rw [if_pos (by omega), if_pos hlt]
    by_cases hlast : s.index + 1 = lines.length
    · -- behind the last line comes an empty one
      have hblank : lines.getD (s.index + 1) [] = [] :=
        List.getD_eq_default _ _ (Nat.le_of_eq hlast.symm)
      have heq : (ReadLine.backspaceN { r with histIdx := r.histIdx + 1 } r.len).histIdx =
          h.count := by
        change r.histIdx + 1 = h.count
        omega
      rw [if_pos heq, hblank]
      have hindex : r.histIdx + 1 = ((s.index + 1 : Nat) : Int) := by omega
      exact ⟨rfl, rfl, fun i hi => absurd hi (Nat.not_lt_zero i), List.not_mem_nil, hindex, hlt,
        hs.within.store (Int.le_refl 0) (by decide) 0⟩
    · have hi : s.index + 1 < lines.length := by omega
      have hne : (ReadLine.backspaceN { r with histIdx := r.histIdx + 1 } r.len).histIdx ≠
          h.count := by
        change r.histIdx + 1 ≠ h.count
        omega
      rw [if_neg hne, List.getD_eq_getElem _ _ hi]
      refine ReadLine.Stands.load
        (r := ReadLine.backspaceN { r with histIdx := r.histIdx + 1 } r.len) hs.within hh ?_ hi
      change r.histIdx + 1 = _
      omega
  · rw [if_neg (by omega), if_neg hlt]
    exact hs

theorem ReadLine.Stands.leftKey (hs : r.Stands lines s) :
    r.leftKey.Stands lines { s with editor := s.editor.left } := by
  have hpos := hs.pos
  rw [ReadLine.leftKey]
  by_cases hcursor : 0 < r.pos
  · rw [if_pos hcursor]
    refine ⟨?_, hs.len, hs.begins, hs.no_nul, hs.idx, hs.idx_le, hs.within⟩
    change r.pos - 1 = ((s.editor.cursor - 1 : Nat) : Int)
    omega
  · rw [if_neg hcursor]
    refine ⟨?_, hs.len, hs.begins, hs.no_nul, hs.idx, hs.idx_le, hs.within⟩
    change r.pos = ((s.editor.cursor - 1 : Nat) : Int)
    omega

theorem ReadLine.Stands.rightKey (hs : r.Stands lines s) :
    r.rightKey.Stands lines { s with editor := s.editor.toEnd } := by
  have hpos := hs.pos
  have hlen := hs.len
  have hle := s.editor.cursor_le
  rw [ReadLine.rightKey]
  by_cases hcursor : r.pos < r.len
  · rw [if_pos hcursor]
    exact ⟨hlen, hlen, hs.begins, hs.no_nul, hs.idx, hs.idx_le, hs.within⟩
  · rw [if_neg hcursor]
    refine ⟨?_, hlen, hs.begins, hs.no_nul, hs.idx, hs.idx_le, hs.within⟩
    change r.pos = (s.editor.text.length : Int)
    omega

theorem ReadLine.Stands.clearKey (hs : r.Stands lines s) (e : Environment) :
    (r.clearKey e).Stands lines s := by
  have hprompt : (ReadLine.showPrompt { r with output := r.output ++ [.clear] } e).Stands lines
      s := by
    rw [ReadLine.showPrompt]
    split
    · exact hs.printed _
    · exact hs.printed _
  exact (hprompt.printed _).printed _

theorem ReadLine.Stands.backspaceKey (hs : r.Stands lines s) :
    r.backspaceKey.Stands lines { s with editor := s.editor.backspace } := by
  have hpos := hs.pos
  have hlen := hs.len
  have hle := s.editor.cursor_le
  have hcap := s.editor.length_le
  rw [ReadLine.backspaceKey]
  by_cases hcursor : 0 < s.editor.cursor
  · rw [if_pos (by omega), Editor.backspace, dif_pos hcursor]
    have hcells : (r.len - 1 - (r.pos - 1)).toNat =
        s.editor.text.length - 1 - (s.editor.cursor - 1) := by omega
    have hfrom : r.pos - 1 = ((s.editor.cursor - 1 : Nat) : Int) := by omega
    refine ⟨hfrom, ?_, ?_, ?_, hs.idx, hs.idx_le, ?_⟩
    · change r.len - 1 = ((s.editor.text.eraseIdx (s.editor.cursor - 1)).length : Int)
      rw [List.length_eraseIdx_of_lt (by omega)]
      omega
    · dsimp only [ReadLine.write, ReadLine.writeFrom]
      rw [hcells, hfrom]
      exact Tracked.begins_shiftLeft hs.begins (by omega)
    · exact fun hz => hs.no_nul (List.mem_of_mem_eraseIdx hz)
    · change Tracked.Within (r.buf.shiftLeft (r.len - 1 - (r.pos - 1)).toNat (r.pos - 1)) 256
      exact hs.within.shiftLeft (by omega) (by omega)
  · rw [if_neg (by omega), Editor.backspace, dif_neg hcursor]
    exact hs

theorem ReadLine.Stands.insertKey (hs : r.Stands lines s) (hc : c ≠ 0) :
    (r.insertKey 256 c).Stands lines { s with editor := s.editor.insert c } := by
  have hpos := hs.pos
  have hlen := hs.len
  have hle := s.editor.cursor_le
  rw [ReadLine.insertKey]
  by_cases hroom : s.editor.text.length < 255
  · rw [if_pos (by omega), Editor.insert, dif_pos hroom]
    have hcells : (r.len - r.pos).toNat = s.editor.text.length - s.editor.cursor := by omega
    refine ⟨?_, ?_, ?_, ?_, hs.idx, hs.idx_le, ?_⟩
    · change r.pos + 1 = ((s.editor.cursor + 1 : Nat) : Int)
      omega
    · change r.len + 1 = ((s.editor.text.insertIdx s.editor.cursor c).length : Int)
      rw [List.length_insertIdx_of_le_length hle]
      omega
    · dsimp only [ReadLine.writeFrom, ReadLine.write]
      rw [hcells, hpos, hlen]
      exact Tracked.begins_shiftRight hs.begins hle c
    · intro hz
      rcases (List.mem_insertIdx hle).1 hz with hz | hz
      · exact hc hz.symm
      · exact hs.no_nul hz
    · exact (hs.within.shiftRight (by omega) (by omega)).store (by omega) (by omega) c
  · rw [if_neg (by omega), Editor.insert, dif_neg hroom]
    exact hs

/-- One key: the variables follow the editor that goes to the end instead of to the right. -/
theorem ReadLine.Stands.key (hs : r.Stands lines s) (hh : HistoryOf h lines) (e : Environment)
    (hc : c ≠ 0) : (r.key e h 256 c).Stands lines (readKey lines s c) := by
  by_cases hright : c = 0x14
  · subst hright
    exact hs.rightKey
  rw [readKey, if_neg hright, recallKey, ReadLine.key]
  split
  · exact hs
  split
  · exact hs.upKey hh
  split
  · exact hs.downKey hh
  split
  · exact hs.leftKey
  split
  · exact hs.clearKey e
  split
  · exact hs.backspaceKey
  · exact hs.insertKey hc

/-- Rows that end within their 256 bytes. -/
theorem historyOf_terminated (h₀ : 0 ≤ h.count)
    (hrows : ∀ i, 0 ≤ i → i < h.count → Terminated (h.rows i)) :
    HistoryOf h (historyLines h.rows h.count) := by
  have hlength : (historyLines h.rows h.count).length = h.count.toNat := by
    rw [historyLines, List.length_map, List.length_range]
  refine ⟨⟨by omega, fun i hi => ?_⟩, fun l hl => ?_⟩
  · obtain ⟨n, hn, hz⟩ := hrows i (by omega) (by omega)
    have hget : (historyLines h.rows h.count)[i] = arrayText (h.rows i) := by
      simp only [historyLines, List.getElem_map, List.getElem_range]
    rw [hget]
    exact spells_arrayText hz (by omega)
  · obtain ⟨i, hi, rfl⟩ := List.mem_map.1 hl
    rw [List.mem_range] at hi
    have hlt := (hrows i (by omega) (by omega)).length_lt
    rw [arrayText, List.length_map, List.length_range]
    omega

theorem ReadLine.Stands.start (hh : HistoryOf h lines) (buf : Int → UInt8) :
    (ReadLine.start h buf).Stands lines ⟨.empty, lines.length⟩ :=
  ⟨rfl, rfl, fun i hi => absurd hi (Nat.not_lt_zero i), List.not_mem_nil, hh.lists.size,
    Nat.le_refl _, fun i hi => by cases hi⟩

/-- Any keys: the variables follow the editor. -/
theorem ReadLine.Stands.keys (hs : r.Stands lines s) (hh : HistoryOf h lines) (e : Environment)
    (keys : List UInt8) (hkeys : ∀ c ∈ keys, c ≠ 0) :
    (keys.foldl (ReadLine.key e h 256) r).Stands lines (keys.foldl (readKey lines) s) := by
  induction keys generalizing r s with
  | nil => exact hs
  | cons c keys ih =>
    exact ih (hs.key hh e (hkeys c List.mem_cons_self))
      fun c' hc' => hkeys c' (List.mem_cons_of_mem _ hc')

/-- Enter ends the line behind its last character. -/
theorem ReadLine.Stands.enterKey (hs : r.Stands lines s) (h : History) :
    Spells (r.enterKey h).1.buf.bytes s.editor.text := by
  have hcap := s.editor.length_le
  have hlen := hs.len
  refine ⟨fun i hi => ?_, ?_, hs.no_nul, by omega⟩
  · change Function.update r.buf.bytes r.len 0 (i : Int) = _
    rw [Function.update_of_ne (by omega)]
    exact hs.begins i hi
  · change Function.update r.buf.bytes r.len 0 (s.editor.text.length : Int) = 0
    rw [← hlen, Function.update_self]

/-- The counters of `read_line` and its accesses to the buffer. -/
structure ReadLine.InBounds (h : History) (r : ReadLine) : Prop where
  pos_nonneg : 0 ≤ r.pos
  pos_le : r.pos ≤ r.len
  len_le : r.len ≤ 255
  idx_nonneg : 0 ≤ r.histIdx
  idx_le : r.histIdx ≤ h.count
  within : r.buf.Within 256

theorem ReadLine.Stands.inBounds (hs : r.Stands lines s) (hh : HistoryOf h lines) :
    r.InBounds h := by
  have hpos := hs.pos
  have hlen := hs.len
  have hidx := hs.idx
  have hsize := hh.lists.size
  have hle := s.editor.cursor_le
  have hcap := s.editor.length_le
  have hidx_le := hs.idx_le
  exact ⟨by omega, by omega, by omega, by omega, by omega, hs.within⟩

end

/-- The keys that `read_line` takes before Enter. -/
def EditingKeys (keys : List UInt8) : Prop := ∀ c ∈ keys, c ≠ 0 ∧ c ≠ 10

/-- A history whose lines end within their rows. -/
def History.Terminated (h : History) : Prop :=
  0 ≤ h.count ∧ ∀ i, 0 ≤ i → i < h.count → KernelCustom.Terminated (h.rows i)

theorem History.empty_terminated : History.empty.Terminated :=
  ⟨Int.le_refl 0, fun _ h₀ hi => absurd hi (Int.not_lt.2 h₀)⟩

/-- `read_line(buf, 256)` after some keys. -/
def readLine (e : Environment) (h : History) (buf : Int → UInt8) (keys : List UInt8) : ReadLine :=
  keys.foldl (ReadLine.key e h 256) (.start h buf)

/-- After any keys the counters and the accesses are in bounds, and Enter leaves a line of length
`len`. -/
theorem read_line_in_bounds (e : Environment) (h : History) (buf : Int → UInt8)
    (keys : List UInt8) (hh : h.Terminated) (hkeys : EditingKeys keys) :
    (readLine e h buf keys).InBounds h ∧
      ((readLine e h buf keys).enterKey h).1.InBounds h ∧
      ∃ line, Spells ((readLine e h buf keys).enterKey h).1.buf.bytes line ∧
        (line.length : Int) = (readLine e h buf keys).len := by
  have hlines := historyOf_terminated hh.1 hh.2
  have hs := (ReadLine.Stands.start hlines buf).keys hlines e keys fun c hc => (hkeys c hc).1
  have hb := hs.inBounds hlines
  have hlen := hb.len_le
  have hpos := Int.le_trans hb.pos_nonneg hb.pos_le
  exact ⟨hb, ⟨hb.pos_nonneg, hb.pos_le, hb.len_le, hb.idx_nonneg, hb.idx_le,
    hb.within.store hpos (by omega) 0⟩, _, hs.enterKey h, hs.len.symm⟩

/-- A history with the line `ls`. -/
def lsHistory : History := History.empty.add fun i => (ascii "ls").getD i.toNat 0

theorem lsHistory_terminated : lsHistory.Terminated := by
  have hcount : lsHistory.count = 1 := rfl
  refine ⟨by decide, fun i h₀ hi => ⟨2, by decide, ?_⟩⟩
  obtain rfl : i = 0 := by omega
  rfl

/-- The stored line is recalled, and an `a` goes into its middle. -/
theorem read_line_in_bounds_recalled :
    (readLine (.empty 0) lsHistory (fun _ => 0) [0x11, 0x13, 97]).InBounds lsHistory ∧
      ∃ line, Spells ((readLine (.empty 0) lsHistory (fun _ => 0) [0x11, 0x13, 97]).enterKey
        lsHistory).1.buf.bytes line ∧ line.length = 3 := by
  have hkeys : EditingKeys [0x11, 0x13, 97] := by
    unfold EditingKeys
    decide +kernel
  obtain ⟨hb, -, line, hline, hlen⟩ :=
    read_line_in_bounds (.empty 0) lsHistory (fun _ => 0) _ lsHistory_terminated hkeys
  have hthree : (readLine (.empty 0) lsHistory (fun _ => 0) [0x11, 0x13, 97]).len = 3 := by
    decide +kernel
  exact ⟨hb, line, hline, by omega⟩

/-- The text and the cursor of `read_line` are those of the editor. -/
structure ReadLine.Shows (r : ReadLine) (s : Recall UInt8 255) : Prop where
  pos : r.pos = s.editor.cursor
  len : r.len = s.editor.text.length
  begins : Begins r.buf.bytes s.editor.text

section
variable (e : Environment) (h : History)

/-- While the keys are typed, `read_line` shows what the editor does. -/
def ReadLine.Faithful (lines : List (List UInt8)) : ReadLine → Recall UInt8 255 → List UInt8 → Prop
  | r, s, [] => r.Shows s
  | r, s, c :: keys =>
    r.Shows s ∧ Faithful lines (r.key e h 256 c) (s.key lines (recallKey c)) keys

/-- The key for a step to the right is pressed only where the end of the line is at most one
character away. -/
def ReadLine.StepsToEnd : ReadLine → List UInt8 → Prop
  | _, [] => True
  | r, c :: keys => (c = 0x14 → r.len ≤ r.pos + 1) ∧ StepsToEnd (r.key e h 256 c) keys

end

section
variable {e : Environment} {h : History} {lines : List (List UInt8)} {r : ReadLine}
  {s : Recall UInt8 255}

theorem ReadLine.Stands.shows (hs : r.Stands lines s) : r.Shows s := ⟨hs.pos, hs.len, hs.begins⟩

theorem ReadLine.Faithful.shows (hf : ReadLine.Faithful e h lines r s keys) : r.Shows s := by
  cases keys with
  | nil => exact hf
  | cons c keys => exact hf.1

/-- Where the end of the line is at most one character away, a key means what it should. -/
theorem ReadLine.Stands.readKey_eq (hs : r.Stands lines s) (hc : c = 0x14 → r.len ≤ r.pos + 1) :
    readKey lines s c = s.key lines (recallKey c) := by
  have hpos := hs.pos
  have hlen := hs.len
  rw [readKey]
  split
  · next hright =>
    have hle := hc hright
    have hend : s.editor.toEnd = s.editor.right := Editor.toEnd_eq_right (by omega)
    subst hright
    rw [hend]
    rfl
  · rfl

/-- A key that goes too far shows in the cursor. -/
theorem ReadLine.Stands.not_shows (hs : r.Stands lines s) (hle : ¬ r.len ≤ r.pos + 1)
    (e : Environment) (h : History) :
    ¬ (r.key e h 256 0x14).Shows (s.key lines (recallKey 0x14)) := by
  intro hshows
  have hpos := hs.pos
  have hlen := hs.len
  have hcode : (r.rightKey).pos = s.editor.toEnd.cursor := hs.rightKey.pos
  have hright : (r.rightKey).pos = s.editor.right.cursor := hshows.pos
  have hiff := s.editor.toEnd_eq_right_iff
  omega

theorem ReadLine.Stands.faithful_iff (hs : r.Stands lines s) (hh : HistoryOf h lines)
    (e : Environment) (keys : List UInt8) (hkeys : EditingKeys keys) :
    ReadLine.Faithful e h lines r s keys ↔ ReadLine.StepsToEnd e h r keys := by
  induction keys generalizing r s with
  | nil => exact iff_of_true hs.shows trivial
  | cons c keys ih =>
    have hrest : EditingKeys keys := fun c' hc' => hkeys c' (List.mem_cons_of_mem _ hc')
    have hkey := hs.key hh e (hkeys c List.mem_cons_self).1
    by_cases hc : c = 0x14 → r.len ≤ r.pos + 1
    · rw [hs.readKey_eq hc] at hkey
      rw [ReadLine.Faithful, ReadLine.StepsToEnd, and_iff_right hs.shows, and_iff_right hc]
      exact ih hkey hrest
    · obtain ⟨rfl, hle⟩ := Classical.not_imp.1 hc
      refine iff_of_false (fun hf => ?_) fun hsteps => hc hsteps.1
      exact hs.not_shows hle e h hf.2.shows

/-- The editor that `read_line` follows is then the one that it should. -/
theorem ReadLine.Stands.reference (hs : r.Stands lines s) (hh : HistoryOf h lines)
    (keys : List UInt8) (hkeys : EditingKeys keys) (hsteps : ReadLine.StepsToEnd e h r keys) :
    (keys.foldl (ReadLine.key e h 256) r).Stands lines
      (keys.foldl (fun s c => s.key lines (recallKey c)) s) := by
  induction keys generalizing r s with
  | nil => exact hs
  | cons c keys ih =>
    have hkey := hs.key hh e (hkeys c List.mem_cons_self).1
    rw [hs.readKey_eq hsteps.1] at hkey
    exact ih hkey (fun c' hc' => hkeys c' (List.mem_cons_of_mem _ hc')) hsteps.2

end

/-- The editor that the user expects, after some keys. -/
def referenceLine (lines : List (List UInt8)) (keys : List UInt8) : Recall UInt8 255 :=
  keys.foldl (fun s c => s.key lines (recallKey c)) ⟨.empty, lines.length⟩

/-- The line that `read_line` returns when Enter is pressed behind some keys. -/
def lineRead (e : Environment) (h : History) (buf : Int → UInt8) (keys : List UInt8) : List UInt8 :=
  arrayText ((readLine e h buf keys).enterKey h).1.buf.bytes

/-- `read_line` is faithful while the keys are typed exactly when no step to the right starts more
than one character before the end, and then the line it returns is the one edited. -/
theorem read_line_faithful_iff (e : Environment) (h : History) (buf : Int → UInt8)
    (keys : List UInt8) (hh : h.Terminated) (hkeys : EditingKeys keys) :
    (ReadLine.Faithful e h (historyLines h.rows h.count) (.start h buf)
        ⟨.empty, (historyLines h.rows h.count).length⟩ keys ↔
      ReadLine.StepsToEnd e h (.start h buf) keys) ∧
    (ReadLine.StepsToEnd e h (.start h buf) keys →
      lineRead e h buf keys = (referenceLine (historyLines h.rows h.count) keys).editor.text) := by
  have hlines := historyOf_terminated hh.1 hh.2
  have hs := ReadLine.Stands.start hlines buf
  refine ⟨hs.faithful_iff hlines e keys hkeys, fun hsteps => ?_⟩
  exact ((hs.reference hlines keys hkeys hsteps).enterKey h).text

/-- `a`, left, right, `b`: the end is one character away. -/
theorem read_line_faithful_iff_short :
    lineRead (.empty 0) .empty (fun _ => 0) [97, 0x13, 0x14, 98] =
      (referenceLine (historyLines History.empty.rows History.empty.count)
        [97, 0x13, 0x14, 98]).editor.text := by
  refine (read_line_faithful_iff _ _ _ _ History.empty_terminated ?_).2 ?_
  · unfold EditingKeys
    decide +kernel
  · refine ⟨?_, ?_, ?_, ?_, trivial⟩ <;> decide +kernel

/-- `a`, `b`, `c`, three times left, right, `d`: the editor has `adbc`. -/
theorem right_key_goes_to_end :
    ¬ ∀ (e : Environment) (h : History) (buf : Int → UInt8) (keys : List UInt8), h.Terminated →
      EditingKeys keys → lineRead e h buf keys =
        (referenceLine (historyLines h.rows h.count) keys).editor.text := by
  intro hall
  have hline := hall (.empty 0) .empty (fun _ => 0) [97, 98, 99, 0x13, 0x13, 0x13, 0x14, 100]
    History.empty_terminated (by unfold EditingKeys; decide +kernel)
  exact absurd hline (by decide +kernel)

end KernelCustom
