import KernelCustom.ShellBounds
import KernelCustom.RecentList

namespace KernelCustom
open CString RecentList Runs
set_option autoImplicit true

def historySize : Int := 16

/-- `history` and `history_count` of the user shell. -/
structure History where
  rows : Int → Int → UInt8
  count : Int

def History.empty : History := ⟨fun _ _ => 0, 0⟩

/-- `history_add`. -/
def History.add (h : History) (line : Int → UInt8) : History :=
  if line 0 = 0 then h
  else
    let last := h.rows (h.count - 1)
    let index := compareIndex last line
    if 0 < h.count ∧ last index = line index then h
    else if h.count < historySize then
      { rows := Function.update h.rows h.count (strcpy (h.rows h.count) line)
        count := h.count + 1 }
    else
      -- `strcpy(history[i], history[i + 1])` for `i + 1` from 1 to 15
      let rows := rollHistory h.rows 15 1
      { h with
        rows := Function.update rows (historySize - 1) (strcpy (rows (historySize - 1)) line) }

/-- The lines of a history, the oldest first. -/
def historyLines (rows : Int → Int → UInt8) (count : Int) : List (List UInt8) :=
  (List.range count.toNat).map fun i : Nat => arrayText (rows i)

def notBlank (line : List UInt8) : Bool := line ≠ []

/-- The rows of a history hold some lines. -/
structure Lists (rows : Int → Int → UInt8) (k : Int) (lines : List (List UInt8)) : Prop where
  size : k = lines.length
  row : ∀ i (h : i < lines.length), Spells (rows i) lines[i]

theorem Lists.lines_eq (h : Lists rows k lines) : historyLines rows k = lines := by
  have hk := h.size
  apply List.ext_getElem
  · rw [historyLines, List.length_map, List.length_range]
    omega
  · intro i hi hi'
    simp only [historyLines, List.getElem_map, List.getElem_range]
    exact (h.row i hi').text

theorem rollHistory_row (h : Int → Int → UInt8) (n : Nat) (i j : Int) :
    rollHistory h n i j =
      if i - 1 ≤ j ∧ j < i - 1 + n then strcpy (h j) (h (j + 1)) else h j := by
  induction n generalizing h i with
  | zero => rw [rollHistory, if_neg (by omega)]
  | succ n ih =>
    rw [rollHistory, ih]
    by_cases hj : j = i - 1
    · subst hj
      have hsum : i - 1 + 1 = i := by omega
      rw [if_neg (by omega), if_pos (by omega), Function.update_self, hsum]
    · rw [Function.update_of_ne hj]
      by_cases hin : i + 1 - 1 ≤ j ∧ j < i + 1 - 1 + n
      · rw [if_pos hin, if_pos (by omega), Function.update_of_ne (by omega)]
      · rw [if_neg hin, if_neg (by omega)]

/-- A line goes behind the others where there is room, and else the rows move up. -/
theorem Lists.push (h : Lists rows k lines) {cap : Nat} (hcap : 0 < cap)
    (hle : lines.length ≤ cap) (hline : Spells a line) :
    (k < cap → Lists (Function.update rows k (strcpy (rows k) a)) (k + 1)
      (RecentList.push cap lines line)) ∧
    (¬ k < cap → ∀ dst, Lists
      (Function.update (rollHistory rows (cap - 1) 1) ((cap : Int) - 1) (strcpy dst a)) k
      (RecentList.push cap lines line)) := by
  have hk := h.size
  constructor
  · intro hroom
    rw [RecentList.push, if_pos (by omega)]
    refine ⟨by rw [List.length_append, List.length_singleton]; omega, fun i hi => ?_⟩
    rw [List.length_append, List.length_singleton] at hi
    rcases Nat.lt_succ_iff_lt_or_eq.1 hi with hi | rfl
    · rw [List.getElem_append_left hi, Function.update_of_ne (by omega)]
      exact h.row i hi
    · rw [List.getElem_concat_length rfl, hk, Function.update_self]
      exact hline.strcpy _
  · intro hfull dst
    rw [RecentList.push, if_neg (by omega)]
    have hlength : lines.tail.length = lines.length - 1 := List.length_tail
    refine ⟨by rw [List.length_append, List.length_singleton]; omega, fun i hi => ?_⟩
    rw [List.length_append, List.length_singleton] at hi
    rcases Nat.lt_succ_iff_lt_or_eq.1 hi with hi | hi
    · rw [List.getElem_append_left hi, Function.update_of_ne (by omega), rollHistory_row,
        if_pos (by omega), List.getElem_tail]
      have hindex : ((i + 1 : Nat) : Int) = i + 1 := by omega
      have hnext := h.row (i + 1) (by omega)
      rw [hindex] at hnext
      exact hnext.strcpy _
    · have hindex : (i : Int) = cap - 1 := by omega
      rw [List.getElem_concat_length hi, hindex, Function.update_self]
      exact hline.strcpy _

/-- The compare with the last row asks whether the line repeats the last one. -/
theorem Lists.repeats_iff (h : Lists rows k lines) (hpos : 0 < k) (hline : Spells a line) :
    rows (k - 1) (compareIndex (rows (k - 1)) a) = a (compareIndex (rows (k - 1)) a) ↔
      lines.getLast? = some line := by
  have hk := h.size
  have hrow := h.row (lines.length - 1) (by omega)
  have hindex : ((lines.length - 1 : Nat) : Int) = k - 1 := by omega
  rw [hindex] at hrow
  rw [hrow.compare_iff hline, List.getLast?_eq_getElem?, List.getElem?_eq_getElem (by omega),
    Option.some.injEq]

theorem notBlank_iff : notBlank line = true ↔ line ≠ [] := by
  rw [notBlank, decide_eq_true_eq]

/-- `history_add` keeps the line or not as the abstract list does. -/
theorem Lists.add {h : History} (hl : Lists h.rows h.count lines) (hle : lines.length ≤ 16)
    (hline : Spells a line) :
    Lists (h.add a).rows (h.add a).count (keepRecent 16 notBlank lines line) := by
  have hsize := hl.size
  simp only [History.add]
  by_cases hblank : a 0 = 0
  · have hrefused : notBlank line = false := by
      rw [hline.head_iff.1 hblank]
      rfl
    rw [if_pos hblank, keepRecent_of_refused hrefused]
    exact hl
  · have hne : notBlank line = true := notBlank_iff.2 fun hk => hblank (hline.head_iff.2 hk)
    have hiff : (0 < h.count ∧ h.rows (h.count - 1) (compareIndex (h.rows (h.count - 1)) a) =
        a (compareIndex (h.rows (h.count - 1)) a)) ↔ lines.getLast? = some line := by
      by_cases hpos : 0 < h.count
      · rw [and_iff_right hpos, hl.repeats_iff hpos hline]
      · have hnil : lines = [] := List.eq_nil_of_length_eq_zero (by omega)
        rw [hnil]
        exact iff_of_false (fun hk => hpos hk.1) (by simp)
    rw [if_neg hblank]
    by_cases hrep : lines.getLast? = some line
    · rw [if_pos (hiff.2 hrep), keepRecent_of_repeat hrep]
      exact hl
    · obtain ⟨hroom, hfull⟩ := hl.push (by decide : 0 < 16) hle hline
      rw [if_neg fun hk => hrep (hiff.1 hk), keepRecent_of_new hne hrep]
      split
      · next hlt => exact hroom hlt
      · next hge => exact hfull hge _

section
variable {ω : Type} {cmds : ShellCommands ω} {s : Shell ω}

/-- The history code of the kernel shell does the same with 30 rows. -/
theorem Lists.remember (hl : Lists s.gHistory s.gHistoryCount lines) (hle : lines.length ≤ 30)
    (hline : Spells s.inputBuffer line) (hne : line ≠ []) (hpos : 0 < s.pos) :
    Lists s.remember.gHistory s.remember.gHistoryCount (keepRecent 30 notBlank lines line) := by
  have hsize := hl.size
  have hmax : maxHistory = 30 := rfl
  have hcount : ∀ l : List Int,
      (if s.gHistoryCount = 0 then s else s.access l).gHistoryCount = s.gHistoryCount := by
    intro l
    split <;> rfl
  have hrows : ∀ l : List Int,
      (if s.gHistoryCount = 0 then s else s.access l).gHistory = s.gHistory := by
    intro l
    split <;> rfl
  have hiff : (s.gHistoryCount = 0 ∨
      s.gHistory ((s.gHistoryCount - 1) % maxHistory)
        (compareIndex (s.gHistory ((s.gHistoryCount - 1) % maxHistory)) s.inputBuffer) ≠
      s.inputBuffer
        (compareIndex (s.gHistory ((s.gHistoryCount - 1) % maxHistory)) s.inputBuffer)) ↔
      lines.getLast? ≠ some line := by
    by_cases hzero : s.gHistoryCount = 0
    · have hnil : lines = [] := List.eq_nil_of_length_eq_zero (by omega)
      rw [hnil]
      exact iff_of_true (.inl hzero) (by simp)
    · have hindex : (s.gHistoryCount - 1) % maxHistory = s.gHistoryCount - 1 := by
        rw [hmax]
        omega
      rw [or_iff_right hzero, hindex, ne_eq, ne_eq, hl.repeats_iff (by omega) hline]
  simp only [Shell.remember, if_pos hpos]
  by_cases hrep : lines.getLast? = some line
  · rw [if_neg fun hk => hiff.1 hk hrep, keepRecent_of_repeat hrep, hcount, hrows]
    exact hl
  · obtain ⟨hroom, hfull⟩ := hl.push (by decide : 0 < 30) hle hline
    rw [if_pos (hiff.2 hrep), keepRecent_of_new (notBlank_iff.2 hne) hrep]
    generalize hs : (if s.gHistoryCount = 0 then s else s.access _) = s'
    have hsame : s'.gHistoryCount = s.gHistoryCount := by
      rw [← hs]
      exact hcount _
    split
    · next hlt => exact hroom hlt
    · next hge =>
      change Lists _ s'.gHistoryCount _
      rw [hsame]
      exact hfull hge _

/-- The keys other than Enter leave the history alone. -/
def Shell.SameHistory (s s' : Shell ω) : Prop :=
  s'.gHistory = s.gHistory ∧ s'.gHistoryCount = s.gHistoryCount

theorem Shell.SameHistory.trans {s₁ s₂ s₃ : Shell ω} (h : s₁.SameHistory s₂)
    (h' : s₂.SameHistory s₃) : s₁.SameHistory s₃ := ⟨h'.1.trans h.1, h'.2.trans h.2⟩

theorem Shell.shiftLeft_sameHistory (n : Nat) (i : Int) (s : Shell ω) :
    s.SameHistory (s.shiftLeft n i) := by
  induction n generalizing i s with
  | zero => exact ⟨rfl, rfl⟩
  | succ n ih => exact ih (i + 1) ((s.access [i + 1]).store i (s.inputBuffer (i + 1)))

theorem Shell.shiftRight_sameHistory (n : Nat) (i : Int) (s : Shell ω) :
    s.SameHistory (s.shiftRight n i) := by
  induction n generalizing i s with
  | zero => exact ⟨rfl, rfl⟩
  | succ n ih => exact ih (i - 1) ((s.access [i - 1]).store i (s.inputBuffer (i - 1)))

theorem Shell.echo_sameHistory (n : Nat) (i : Int) (s : Shell ω) :
    s.SameHistory (s.echo n i) := by
  induction n generalizing i s with
  | zero => exact ⟨rfl, rfl⟩
  | succ n ih => exact ih (i + 1) ((s.access [i]).print [.putc (s.inputBuffer i)])

theorem Shell.key_sameHistory (s : Shell ω) (cmds : ShellCommands ω) (hc : c ≠ 10) :
    s.SameHistory (s.key cmds c) := by
  simp only [Shell.key, if_neg hc]
  split
  · exact ⟨rfl, rfl⟩
  split
  · rw [Shell.upKey]
    split <;> exact ⟨rfl, rfl⟩
  split
  · simp only [Shell.downKey]
    split
    · split <;> exact ⟨rfl, rfl⟩
    · exact ⟨rfl, rfl⟩
  split
  · simp only [Shell.backspaceKey]
    split
    · have hshift := Shell.shiftLeft_sameHistory (s.len - 1 - (s.pos - 1)).toNat (s.pos - 1)
        { s with pos := s.pos - 1 }
      exact hshift.trans (Shell.echo_sameHistory _ _ _)
    · exact ⟨rfl, rfl⟩
  split
  · rw [Shell.leftKey]
    split <;> exact ⟨rfl, rfl⟩
  split
  · rw [Shell.rightKey]
    split <;> exact ⟨rfl, rfl⟩
  · simp only [Shell.insertKey]
    split
    · have hshift := Shell.shiftRight_sameHistory (s.len - s.pos).toNat s.len s
      exact hshift.trans (Shell.echo_sameHistory _ _ _)
    · exact ⟨rfl, rfl⟩

/-- The lines with which Enter is pressed; an empty one is passed over. -/
def Shell.linesEntered (cmds : ShellCommands ω) : Shell ω → List UInt8 → List (List UInt8)
  | _, [] => []
  | s, c :: keys =>
    (if c = 10 ∧ 0 < s.pos then [arrayText (Function.update s.inputBuffer s.pos 0)] else []) ++
      linesEntered cmds (s.key cmds c) keys

/-- A line that is entered ends inside the buffer and is not empty. -/
def Shell.EntersLine (s : Shell ω) (c : UInt8) : Prop :=
  c = 10 → 0 < s.pos → s.pos < shellBufSize ∧ s.inputBuffer 0 ≠ 0

theorem Lists.enterKey (hl : Lists s.gHistory s.gHistoryCount lines) (hle : lines.length ≤ 30)
    (henter : s.EntersLine 10) (cmds : ShellCommands ω) :
    Lists (s.enterKey cmds).gHistory (s.enterKey cmds).gHistoryCount
      ((if 0 < s.pos then [arrayText (Function.update s.inputBuffer s.pos 0)] else []).foldl
        (keepRecent 30 notBlank) lines) := by
  let typed := (s.store s.pos 0).print (puts (ascii "\n"))
  change Lists typed.remember.gHistory typed.remember.gHistoryCount _
  by_cases hpos : 0 < s.pos
  · obtain ⟨hlt, hne⟩ := henter rfl hpos
    have hsize : shellBufSize = 256 := rfl
    have hnul : Function.update s.inputBuffer s.pos 0 (s.pos.toNat : Int) = 0 := by
      rw [Int.toNat_of_nonneg (Int.le_of_lt hpos), Function.update_self]
    have hline := spells_arrayText hnul (by omega)
    have hblank : arrayText (Function.update s.inputBuffer s.pos 0) ≠ [] := by
      intro hnil
      have hz := hline.head_iff.2 hnil
      rw [Function.update_of_ne (Int.ne_of_lt hpos)] at hz
      exact hne hz
    rw [if_pos hpos]
    exact Lists.remember (s := typed) hl hle hline hblank hpos
  · have hsame : typed.remember = typed := if_neg hpos
    rw [if_neg hpos, hsame]
    exact hl

/-- Every run of keys: the history is what the abstract list makes of the lines entered. -/
theorem Lists.run (hl : Lists s.gHistory s.gHistoryCount lines) (hle : lines.length ≤ 30)
    (keys : List UInt8) (hkeys : EachStep (Shell.key cmds) Shell.EntersLine s keys) :
    Lists (keys.foldl (Shell.key cmds) s).gHistory (keys.foldl (Shell.key cmds) s).gHistoryCount
      ((s.linesEntered cmds keys).foldl (keepRecent 30 notBlank) lines) := by
  induction keys generalizing s lines with
  | nil => exact hl
  | cons c keys ih =>
    obtain ⟨hc, hrest⟩ := hkeys
    rw [Shell.linesEntered, List.foldl_append, List.foldl_cons]
    by_cases henter : c = 10
    · subst henter
      have hentered := hl.enterKey hle hc cmds
      have hle' := length_foldl_keepRecent_le hle (by decide) notBlank
        (if 0 < s.pos then [arrayText (Function.update s.inputBuffer s.pos 0)] else [])
      simp only [true_and]
      exact ih hentered hle' hrest
    · have hsame := s.key_sameHistory cmds henter
      rw [if_neg fun hk => henter hk.1]
      refine ih ?_ hle hrest
      rw [hsame.1, hsame.2]
      exact hl

end

theorem Lists.empty (rows : Int → Int → UInt8) : Lists rows 0 [] :=
  ⟨rfl, fun i hi => absurd hi (Nat.not_lt_zero i)⟩

theorem Lists.addAll {h : History} (hl : Lists h.rows h.count lines) (hle : lines.length ≤ 16)
    (buffers : List (Int → UInt8)) (hb : ∀ b ∈ buffers, Terminated b) :
    Lists (buffers.foldl History.add h).rows (buffers.foldl History.add h).count
      ((buffers.map arrayText).foldl (keepRecent 16 notBlank) lines) := by
  induction buffers generalizing h lines with
  | nil => exact hl
  | cons b buffers ih =>
    obtain ⟨n, hn, hnul⟩ := hb b List.mem_cons_self
    have hline := spells_arrayText hnul (by omega)
    have hle' := length_foldl_keepRecent_le hle (by decide) notBlank [arrayText b]
    exact ih (hl.add hle hline) hle' fun b' hb' => hb b' (List.mem_cons_of_mem _ hb')

/-- What a history with room for `cap` lines holds after some lines. -/
def HoldsTail (cap : Nat) (rows : Int → Int → UInt8) (k : Int) (lines : List (List UInt8)) :
    Prop :=
  k = min cap (kept notBlank lines).length ∧
    historyLines rows k = (kept notBlank lines).rtake cap

theorem Lists.holdsTail {cap : Nat} (hcap : 0 < cap)
    (h : Lists rows k (lines.foldl (keepRecent cap notBlank) [])) :
    HoldsTail cap rows k lines := by
  rw [keepRecent_eq_kept hcap] at h
  refine ⟨h.size.trans ?_, h.lines_eq⟩
  rw [List.rtake, List.length_drop]
  omega

/-- Both histories are the end of the lines entered, without the empty ones and the repetitions:
the user shell's for any lines given to `history_add`, the kernel shell's for any keys. -/
theorem histories_hold_tail :
    (∀ buffers : List (Int → UInt8), (∀ b ∈ buffers, Terminated b) →
      HoldsTail 16 (buffers.foldl History.add .empty).rows
        (buffers.foldl History.add .empty).count (buffers.map arrayText)) ∧
    ∀ (ω : Type) (cmds : ShellCommands ω) (w : ω) (keys : List UInt8),
      EachStep (Shell.key cmds) Shell.EntersLine ((Shell.boot w).enter cmds) keys →
      HoldsTail 30 (keys.foldl (Shell.key cmds) ((Shell.boot w).enter cmds)).gHistory
        (keys.foldl (Shell.key cmds) ((Shell.boot w).enter cmds)).gHistoryCount
        (((Shell.boot w).enter cmds).linesEntered cmds keys) := by
  refine ⟨fun buffers hb => ?_, fun ω cmds w keys hkeys => ?_⟩
  · exact (Lists.addAll (Lists.empty _) (Nat.zero_le _) buffers hb).holdsTail (by decide)
  · have hboot : Lists ((Shell.boot w).enter cmds).gHistory
        ((Shell.boot w).enter cmds).gHistoryCount [] := Lists.empty _
    exact (hboot.run (Nat.zero_le _) keys hkeys).holdsTail (by decide)

/-- Two equal lines for the user shell; `a` and Enter for the kernel's. -/
theorem histories_hold_tail_repeat :
    HoldsTail 16 ([fun i => if i = 0 then 97 else 0, fun i => if i = 0 then 97 else 0].foldl
        History.add .empty).rows
      ([fun i => if i = 0 then 97 else 0, fun i => if i = 0 then 97 else 0].foldl
        History.add .empty).count
      ([fun i => if i = 0 then 97 else 0, fun i => if i = 0 then 97 else 0].map arrayText) ∧
    HoldsTail 30 ([97, 10].foldl (Shell.key idleCommands)
        ((Shell.boot ()).enter idleCommands)).gHistory
      ([97, 10].foldl (Shell.key idleCommands)
        ((Shell.boot ()).enter idleCommands)).gHistoryCount
      (((Shell.boot ()).enter idleCommands).linesEntered idleCommands [97, 10]) := by
  refine ⟨histories_hold_tail.1 _ fun b hb => ?_, histories_hold_tail.2 _ _ _ _ ⟨?_, ?_, trivial⟩⟩
  · rcases List.mem_cons.1 hb with rfl | hb
    · exact ⟨1, by decide, rfl⟩
    · rw [List.mem_singleton.1 hb]
      exact ⟨1, by decide, rfl⟩
  · intro hc
    exact absurd hc (by decide)
  · intro _ _
    exact ⟨by decide +kernel, by decide +kernel⟩

end KernelCustom
