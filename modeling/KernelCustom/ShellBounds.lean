import KernelCustom.ShellLoop
import KernelCustom.Runs

namespace KernelCustom
open CString Runs
set_option autoImplicit true

section
variable {ω : Type} {cmds : ShellCommands ω} {s s' : Shell ω} {i : Int} {n : Nat}

/-- The counters are in step and no access left the buffer. -/
structure Shell.Bounded (s : Shell ω) : Prop where
  pos_nonneg : 0 ≤ s.pos
  pos_le : s.pos ≤ s.len
  len_le : s.len ≤ shellBufSize - 1
  accesses : ∀ i, i ∈ s.accesses → 0 ≤ i ∧ i < shellBufSize

/-- The array holds a string that fits in a row. -/
def Terminated (row : Int → UInt8) : Prop := ∃ n : Nat, n < 256 ∧ row n = 0

/-- What the line editor keeps besides: the history holds strings that fit in a row. -/
structure Shell.Sound (s : Shell ω) : Prop extends s.Bounded where
  count_nonneg : 0 ≤ s.gHistoryCount
  count_le : s.gHistoryCount ≤ maxHistory
  idx_le : s.gHistoryIdx ≤ s.gHistoryCount
  idx_ge : -1 ≤ s.gHistoryIdx
  rows : ∀ i, 0 ≤ i → i < s.gHistoryCount → Terminated (s.gHistory i)

/-- Work on the buffer that stays inside it. -/
def Shell.Edits (s s' : Shell ω) : Prop :=
  ∃ buf acc out, s' = { s with inputBuffer := buf, accesses := s.accesses ++ acc, screen := out } ∧
    ∀ i, i ∈ acc → 0 ≤ i ∧ i < shellBufSize

theorem Shell.Edits.refl (s : Shell ω) : s.Edits s :=
  ⟨s.inputBuffer, [], s.screen, by rw [List.append_nil], fun i hi => by cases hi⟩

theorem Shell.Edits.trans {s₁ s₂ s₃ : Shell ω} (h : s₁.Edits s₂) (h' : s₂.Edits s₃) :
    s₁.Edits s₃ := by
  obtain ⟨b, l, o, rfl, hl⟩ := h
  obtain ⟨b', l', o', rfl, hl'⟩ := h'
  refine ⟨b', l ++ l', o', by rw [List.append_assoc], fun i hi => ?_⟩
  rcases List.mem_append.1 hi with hi | hi
  · exact hl i hi
  · exact hl' i hi

theorem Shell.Edits.print (s : Shell ω) (calls : List VgaCall) : s.Edits (s.print calls) :=
  ⟨s.inputBuffer, [], s.screen ++ calls, by rw [List.append_nil]; rfl, fun i hi => by cases hi⟩

theorem Shell.Edits.access (s : Shell ω) (h : ∀ i, i ∈ l → 0 ≤ i ∧ i < shellBufSize) :
    s.Edits (s.access l) := ⟨s.inputBuffer, l, s.screen, rfl, h⟩

theorem Shell.Edits.store (s : Shell ω) (c : UInt8) (h₀ : 0 ≤ i) (h : i < shellBufSize) :
    s.Edits (s.store i c) :=
  ⟨_, [i], s.screen, rfl, fun j hj => by rw [List.mem_singleton.1 hj]; exact ⟨h₀, h⟩⟩

theorem mem_upTo (hi : i ∈ upTo n) : 0 ≤ i ∧ i ≤ n := by
  obtain ⟨k, hk, rfl⟩ := List.mem_map.1 hi
  have := List.mem_range.1 hk
  omega

theorem upTo_bounded (hn : n < 256) : ∀ i, i ∈ upTo n → 0 ≤ i ∧ i < shellBufSize := by
  intro i hi
  have := mem_upTo hi
  have hs : shellBufSize = 256 := rfl
  omega

theorem Shell.Edits.shiftLeft (s : Shell ω) (h₀ : 0 ≤ i) (h : i + n < shellBufSize) :
    s.Edits (s.shiftLeft n i) := by
  induction n generalizing i s with
  | zero => exact .refl s
  | succ n ih =>
    rw [Shell.shiftLeft]
    have hread : s.Edits (s.access [i + 1]) :=
      .access s fun j hj => by rw [List.mem_singleton.1 hj]; omega
    exact (hread.trans (.store _ _ h₀ (by omega))).trans (ih _ (by omega) (by omega))

theorem Shell.Edits.shiftRight (s : Shell ω) (h₀ : 0 ≤ i - n) (h : i < shellBufSize) :
    s.Edits (s.shiftRight n i) := by
  induction n generalizing i s with
  | zero => exact .refl s
  | succ n ih =>
    rw [Shell.shiftRight]
    have hread : s.Edits (s.access [i - 1]) :=
      .access s fun j hj => by rw [List.mem_singleton.1 hj]; omega
    exact (hread.trans (.store _ _ (by omega) h)).trans (ih _ (by omega) (by omega))

theorem Shell.Edits.echo (s : Shell ω) (h₀ : 0 ≤ i) (h : i + n ≤ shellBufSize) :
    s.Edits (s.echo n i) := by
  induction n generalizing i s with
  | zero => exact .refl s
  | succ n ih =>
    rw [Shell.echo]
    have hread : s.Edits (s.access [i]) :=
      .access s fun j hj => by rw [List.mem_singleton.1 hj]; omega
    exact (hread.trans (.print _ _)).trans (ih _ (by omega) (by omega))

/-- Work inside the buffer keeps what is known. -/
theorem Shell.Sound.edits (h : s.Sound) (he : s.Edits s') : s'.Sound := by
  obtain ⟨buf, acc, out, rfl, hacc⟩ := he
  refine ⟨⟨h.pos_nonneg, h.pos_le, h.len_le, fun i hi => ?_⟩, h.count_nonneg, h.count_le, h.idx_le,
    h.idx_ge, h.rows⟩
  rcases List.mem_append.1 hi with hi | hi
  · exact h.accesses i hi
  · exact hacc i hi

/-- The counters may move within the line. -/
theorem Shell.Sound.move (h : s.Sound) (h₀ : 0 ≤ p) (hp : p ≤ l) (hl : l ≤ shellBufSize - 1) :
    Shell.Sound { s with pos := p, len := l } :=
  ⟨⟨h₀, hp, hl, h.accesses⟩, h.count_nonneg, h.count_le, h.idx_le, h.idx_ge, h.rows⟩

theorem Shell.Edits.pos_eq (h : s.Edits s') : s'.pos = s.pos := by
  obtain ⟨_, _, _, rfl, -⟩ := h
  rfl

theorem Shell.Edits.len_eq (h : s.Edits s') : s'.len = s.len := by
  obtain ⟨_, _, _, rfl, -⟩ := h
  rfl

theorem Shell.Edits.idx_eq (h : s.Edits s') : s'.gHistoryIdx = s.gHistoryIdx := by
  obtain ⟨_, _, _, rfl, -⟩ := h
  rfl

theorem Shell.Sound.print (h : s.Sound) (calls : List VgaCall) : (s.print calls).Sound :=
  h.edits (.print s calls)

theorem Shell.Sound.access (h : s.Sound) (hn : n < 256) : (s.access (upTo n)).Sound :=
  h.edits (.access s (upTo_bounded hn))

theorem Shell.Sound.cursorBack (h : s.Sound) (k : Int) : (s.cursorBack k).Sound :=
  h.edits (.print s _)

theorem Shell.Sound.echo (h : s.Sound) (k : Int) (h₀ : 0 ≤ i) (hk : i + k ≤ shellBufSize)
    (hi : i ≤ shellBufSize) : (s.echo k.toNat i).Sound :=
  h.edits (.echo s h₀ (by omega))

theorem Shell.Sound.clearBuffer (h : s.Sound) : s.clearBuffer.Sound :=
  h.edits ⟨_, upTo 255, s.screen, rfl, upTo_bounded (by decide)⟩

theorem Shell.Sound.backspaceKey (h : s.Sound) : s.backspaceKey.Sound := by
  have h₀ := h.pos_nonneg
  have hp := h.pos_le
  have hl := h.len_le
  simp only [Shell.backspaceKey]
  split
  · next hpos =>
    have h₁ := h.move (p := s.pos - 1) (l := s.len) (by omega) (by omega) hl
    have he : Shell.Edits { s with pos := s.pos - 1 }
        (Shell.shiftLeft (s.len - 1 - (s.pos - 1)).toNat (s.pos - 1) { s with pos := s.pos - 1 }) :=
      .shiftLeft _ (by omega) (by omega)
    generalize Shell.shiftLeft (s.len - 1 - (s.pos - 1)).toNat (s.pos - 1)
      { s with pos := s.pos - 1 } = s₂ at he
    have hp₂ : s₂.pos = s.pos - 1 := he.pos_eq
    have hl₂ : s₂.len = s.len := he.len_eq
    have h₃ := (h₁.edits he).move (p := s₂.pos) (l := s₂.len - 1) (by omega) (by omega) (by omega)
    apply Shell.Sound.cursorBack
    apply Shell.Sound.print
    apply Shell.Sound.echo (h₃.print _)
    · exact h₃.pos_nonneg
    · change s₂.pos + (s₂.len - 1 - s₂.pos) ≤ shellBufSize
      omega
    · change s₂.pos ≤ shellBufSize
      omega
  · exact h

theorem Shell.Sound.leftKey (h : s.Sound) : s.leftKey.Sound := by
  have hp := h.pos_le
  rw [Shell.leftKey]
  split
  · exact (h.move (by omega) (by omega) h.len_le).print _
  · exact h

theorem Shell.Sound.rightKey (h : s.Sound) : s.rightKey.Sound := by
  have h₀ := h.pos_nonneg
  have hl := h.len_le
  rw [Shell.rightKey]
  split
  · have he : s.Edits (s.echo 1 s.pos) := .echo s h₀ (by omega)
    have hlen := he.len_eq
    exact (h.edits he).move (by omega) (by omega) (by omega)
  · exact h

theorem Shell.Sound.insertKey (h : s.Sound) (c : UInt8) : (s.insertKey c).Sound := by
  have h₀ := h.pos_nonneg
  have hp := h.pos_le
  simp only [Shell.insertKey]
  split
  · next hlt =>
    have he : s.Edits ((s.shiftRight (s.len - s.pos).toNat s.len).store s.pos c) :=
      (Shell.Edits.shiftRight s (by omega) (by omega)).trans (.store _ c h₀ (by omega))
    generalize (s.shiftRight (s.len - s.pos).toNat s.len).store s.pos c = s₂ at he
    have hp₂ := he.pos_eq
    have hl₂ := he.len_eq
    have h₃ := (h.edits he).move (p := s₂.pos) (l := s₂.len + 1) (by omega) (by omega) (by omega)
    have he' : Shell.Edits { s₂ with len := s₂.len + 1 }
        (Shell.echo (s₂.len + 1 - s₂.pos).toNat s₂.pos { s₂ with len := s₂.len + 1 }) :=
      .echo _ (by omega) (by omega)
    have h₄ := h₃.edits he'
    have hp₃ := he'.pos_eq
    have hl₃ := he'.len_eq
    dsimp only at hp₃ hl₃
    exact (h₄.move (by omega) (by omega) (by omega)).cursorBack _
  · exact h

theorem Terminated.length_lt {row : Int → UInt8} (h : Terminated row) : arrayLength row < 256 := by
  obtain ⟨n, hn, hz⟩ := h
  have := arrayLength_le hz (by omega)
  omega

theorem Terminated.strcpy {src : Int → UInt8} (h : Terminated src) (dst : Int → UInt8) :
    Terminated (strcpy dst src) := by
  have hlt := h.length_lt
  obtain ⟨n, hn, hz⟩ := h
  exact ⟨arrayLength src, hlt, (strcpy_nul dst hz (by omega)).1⟩

theorem rollHistory_terminated {h : Int → Int → UInt8}
    (hrows : ∀ j, 0 ≤ j → j < maxHistory → Terminated (h j)) (hi : 1 ≤ i)
    (hn : i + n ≤ maxHistory) :
    ∀ j, 0 ≤ j → j < maxHistory → Terminated (rollHistory h n i j) := by
  induction n generalizing h i with
  | zero => exact hrows
  | succ n ih =>
    rw [rollHistory]
    refine ih (fun j h₀ hj => ?_) (by omega) (by omega)
    rw [Function.update_apply]
    split
    · exact (hrows i (by omega) (by omega)).strcpy _
    · exact hrows j h₀ hj

theorem Shell.Sound.withHistory {rows : Int → Int → UInt8} (h : s.Sound) (h₀ : 0 ≤ k)
    (hk : k ≤ maxHistory) (hidx : s.gHistoryIdx ≤ k)
    (hrows : ∀ i, 0 ≤ i → i < k → Terminated (rows i)) :
    Shell.Sound { s with gHistory := rows, gHistoryCount := k } :=
  ⟨⟨h.pos_nonneg, h.pos_le, h.len_le, h.accesses⟩, h₀, hk, hidx, h.idx_ge, hrows⟩

/-- A line that ends inside the buffer may go to the history. -/
theorem Shell.Sound.remember (h : s.Sound) (hline : Terminated s.inputBuffer) :
    s.remember.Sound := by
  have hlen := hline.length_lt
  have hcmp :
      compareIndex (s.gHistory ((s.gHistoryCount - 1) % maxHistory)) s.inputBuffer < 256 := by
    obtain ⟨n, hn, hz⟩ := hline
    have := compareIndex_le (a := s.gHistory ((s.gHistoryCount - 1) % maxHistory)) hz (by omega)
    omega
  have hc₀ := h.count_nonneg
  have hc := h.count_le
  have hi := h.idx_le
  have hmax : maxHistory = 30 := rfl
  simp only [Shell.remember]
  split
  · generalize compareIndex (s.gHistory ((s.gHistoryCount - 1) % maxHistory)) s.inputBuffer = k
      at hcmp
    have he : s.Edits (if s.gHistoryCount = 0 then s else s.access (upTo k)) := by
      split
      · exact .refl s
      · exact .access s (upTo_bounded hcmp)
    generalize (if s.gHistoryCount = 0 then s else s.access (upTo k)) = s₁ at he
    split
    · have he₂ := he.trans (.access s₁ (upTo_bounded hlen))
      have h₂ := h.edits he₂
      have hidx := he₂.idx_eq
      split
      · next hroom =>
        refine h₂.withHistory (by omega) (by omega) (by omega) fun j h₀ hj => ?_
        rw [Function.update_apply]
        split
        · exact hline.strcpy _
        · exact h.rows j h₀ (by omega)
      · next hfull =>
        have hcount : (s₁.access (upTo (arrayLength s.inputBuffer))).gHistoryCount =
          s.gHistoryCount := by
          obtain ⟨_, _, _, rfl, -⟩ := he
          rfl
        have hroll := rollHistory_terminated (h := s.gHistory) (i := 1) (n := 29)
          (fun j h₀ hj => h.rows j h₀ (by omega)) (by omega) (by omega)
        refine h₂.withHistory (by omega) (by omega) (by omega) fun j h₀ hj => ?_
        rw [Function.update_apply]
        split
        · exact hline.strcpy _
        · exact hroll j h₀ (by omega)
    · exact h.edits he
  · exact h

theorem Shell.remember_inputBuffer (s : Shell ω) : s.remember.inputBuffer = s.inputBuffer := by
  simp only [Shell.remember]
  split
  · split
    · split <;> split <;> rfl
    · split <;> rfl
  · rfl

theorem Shell.remember_world (s : Shell ω) : s.remember.world = s.world := by
  simp only [Shell.remember]
  split
  · split
    · split <;> split <;> rfl
    · split <;> rfl
  · rfl

theorem Shell.Sound.world (h : s.Sound) (w : ω) : Shell.Sound { s with world := w } :=
  ⟨⟨h.pos_nonneg, h.pos_le, h.len_le, h.accesses⟩, h.count_nonneg, h.count_le, h.idx_le, h.idx_ge,
    h.rows⟩

/-- Enter leaves an empty line. -/
theorem Shell.Sound.enterKey (h : s.Sound) : (s.enterKey cmds).Sound := by
  have h₀ := h.pos_nonneg
  have hp := h.pos_le
  have hl := h.len_le
  have hs : shellBufSize = 256 := rfl
  have h₁ : ((s.store s.pos 0).print (puts (ascii "\n"))).Sound :=
    (h.edits (.store s 0 h₀ (by omega))).print _
  have hline : Terminated ((s.store s.pos 0).print (puts (ascii "\n"))).inputBuffer := by
    refine ⟨s.pos.toNat, by omega, ?_⟩
    change Function.update s.inputBuffer s.pos 0 (s.pos.toNat : Int) = 0
    rw [Int.toNat_of_nonneg h₀, Function.update_self]
  have h₂ := h₁.remember hline
  rw [← Shell.remember_inputBuffer] at hline
  simp only [Shell.enterKey]
  generalize ((s.store s.pos 0).print (puts (ascii "\n"))).remember = s₂ at h₂ hline
  have h₃ : Shell.Sound { s₂ with gHistoryIdx := s₂.gHistoryCount } :=
    ⟨⟨h₂.pos_nonneg, h₂.pos_le, h₂.len_le, h₂.accesses⟩, h₂.count_nonneg, h₂.count_le,
      Int.le_refl _, Int.le_trans (by decide) h₂.count_nonneg, h₂.rows⟩
  have h₄ := h₃.access hline.length_lt
  have h₅ := (h₄.world (cmds.handleCommand (arrayText s₂.inputBuffer) s₂.world).1).print
    (cmds.handleCommand (arrayText s₂.inputBuffer) s₂.world).2
  exact ((h₅.move (Int.le_refl 0) (Int.le_refl 0) (by decide)).clearBuffer).print _

/-- Loading a line of the history puts the cursor behind it and leaves `len` alone. -/
theorem Shell.loadHistory_edits (hrow : Terminated (s.gHistory s.gHistoryIdx)) :
    ∃ s', s.Edits s' ∧
      s.loadHistory = { s' with pos := arrayLength (s.gHistory s.gHistoryIdx) } := by
  have hlt := hrow.length_lt
  have hcopy : arrayLength (strcpy s.inputBuffer (s.gHistory s.gHistoryIdx)) =
      arrayLength (s.gHistory s.gHistoryIdx) := by
    obtain ⟨n, hn, hz⟩ := hrow
    exact (strcpy_nul _ hz (by omega)).2
  let row := s.gHistory s.gHistoryIdx
  refine ⟨{ s with
    inputBuffer := strcpy s.inputBuffer row
    accesses := s.accesses ++ (upTo (arrayLength row) ++ upTo (arrayLength row) ++
      upTo (arrayLength row))
    screen := s.screen ++ puts (arrayText (strcpy s.inputBuffer row)) }, ⟨_, _, _, rfl, ?_⟩, ?_⟩
  · intro i hi
    simp only [List.mem_append, or_self] at hi
    exact upTo_bounded hlt i hi
  · simp only [Shell.loadHistory, Shell.access, Shell.print, hcopy, List.append_assoc, row]

/-- A history key that acts must not load a line longer than the present one. -/
def Shell.Fits (s : Shell ω) (c : UInt8) : Prop :=
  (c = 0x11 → 0 < s.gHistoryCount → 0 < s.gHistoryIdx →
    (arrayLength (s.gHistory (s.gHistoryIdx - 1)) : Int) ≤ s.len) ∧
  (c = 0x12 → s.gHistoryIdx + 1 < s.gHistoryCount →
    (arrayLength (s.gHistory (s.gHistoryIdx + 1)) : Int) ≤ s.len)

theorem Shell.Sound.atIdx (h : s.Sound) (h₀ : -1 ≤ k) (hk : k ≤ s.gHistoryCount) :
    (Shell.wipe { s with gHistoryIdx := k }).Sound := by
  have h₁ : Shell.Sound { s with gHistoryIdx := k } :=
    ⟨⟨h.pos_nonneg, h.pos_le, h.len_le, h.accesses⟩, h.count_nonneg, h.count_le, hk, h₀, h.rows⟩
  exact h₁.print _

/-- Loading a row keeps the counters in step exactly when the row is not longer than `len`. -/
theorem Shell.Sound.loadHistory (h : s.Sound) (hrow : Terminated (s.gHistory s.gHistoryIdx)) :
    (arrayLength (s.gHistory s.gHistoryIdx) ≤ s.len → s.loadHistory.Sound) ∧
      (s.loadHistory.Bounded → arrayLength (s.gHistory s.gHistoryIdx) ≤ s.len) := by
  obtain ⟨s', he, heq⟩ := Shell.loadHistory_edits hrow
  have hlen := he.len_eq
  have hl := h.len_le
  rw [heq]
  constructor
  · intro hle
    exact (h.edits he).move (by omega) (by omega) (by omega)
  · intro hb
    have hp : (arrayLength (s.gHistory s.gHistoryIdx) : Int) ≤ s'.len := hb.pos_le
    omega

theorem Shell.Sound.upKey (h : s.Sound) :
    (s.Fits 0x11 → s.upKey.Sound) ∧ (s.upKey.Bounded → s.Fits 0x11) := by
  have hi := h.idx_le
  rw [Shell.upKey, Shell.Fits]
  split
  · next hact =>
    have h₁ := h.atIdx (k := s.gHistoryIdx - 1) (by omega) (by omega)
    have hrow := h.rows (s.gHistoryIdx - 1) (by omega) (by omega)
    have hload := h₁.loadHistory hrow
    refine ⟨fun hf => hload.1 (hf.1 rfl hact.1 hact.2), fun hb => ⟨fun _ _ _ => hload.2 hb, ?_⟩⟩
    intro hc
    exact absurd hc (by decide)
  · next hact =>
    refine ⟨fun _ => h, fun _ => ⟨fun _ h₁ h₂ => absurd ⟨h₁, h₂⟩ hact, ?_⟩⟩
    intro hc
    exact absurd hc (by decide)

theorem Shell.Sound.downKey (h : s.Sound) :
    (s.Fits 0x12 → s.downKey.Sound) ∧ (s.downKey.Bounded → s.Fits 0x12) := by
  have h₀ := h.idx_ge
  have hl := h.len_le
  have hp := h.pos_nonneg
  have hpl := h.pos_le
  have hup : (0x12 : UInt8) = 0x11 → False := by decide
  simp only [Shell.downKey]
  rw [Shell.Fits]
  split
  · next hact =>
    have h₁ := h.atIdx (k := s.gHistoryIdx + 1) (by omega) (by omega)
    split
    · next hblank =>
      have hlast : s.gHistoryIdx + 1 = s.gHistoryCount := hblank
      have hstore := h₁.edits (.store _ 0 (Int.le_refl 0) (by decide))
      refine ⟨fun _ => hstore.move (Int.le_refl 0) (Int.le_trans hp hpl) hl, fun _ => ⟨?_, ?_⟩⟩
      · intro hc
        exact (hup hc).elim
      · intro _ hlt
        omega
    · next hblank =>
      have hne : ¬ s.gHistoryIdx + 1 = s.gHistoryCount := hblank
      have hrow := h.rows (s.gHistoryIdx + 1) (by omega) (by omega)
      have hload := h₁.loadHistory hrow
      refine ⟨fun hf => hload.1 (hf.2 rfl (by omega)), fun hb => ⟨?_, fun _ _ => hload.2 hb⟩⟩
      intro hc
      exact (hup hc).elim
  · next hact =>
    refine ⟨fun _ => h, fun _ => ⟨fun hc => (hup hc).elim, fun _ hlt => ?_⟩⟩
    omega

/-- One key: the line editor stays sound exactly when the key fits. -/
theorem Shell.Sound.key (h : s.Sound) (c : UInt8) :
    (s.Fits c → (s.key cmds c).Sound) ∧ ((s.key cmds c).Bounded → s.Fits c) := by
  by_cases hup : c = 0x11
  · subst hup
    exact h.upKey
  by_cases hdown : c = 0x12
  · subst hdown
    exact h.downKey
  have hfits : s.Fits c := ⟨fun hc => absurd hc hup, fun hc => absurd hc hdown⟩
  refine ⟨fun _ => ?_, fun _ => hfits⟩
  simp only [Shell.key, if_neg hup, if_neg hdown]
  split
  · exact h
  split
  · exact h.enterKey
  split
  · exact h.backspaceKey
  split
  · exact h.leftKey
  split
  · exact h.rightKey
  · exact h.insertKey c

theorem Shell.Sound.throughout (h : s.Sound) (keys : List UInt8) :
    Throughout (Shell.key cmds) Shell.Bounded s keys ↔
      EachStep (Shell.key cmds) Shell.Fits s keys := by
  apply throughout_iff_eachStep (Shell.key cmds) _ _ h keys
  · exact fun _ => Shell.Sound.toBounded
  · exact fun s c h => h.key c

/-- The variables before the shell is entered for the first time. -/
def Shell.boot (w : ω) : Shell ω where
  inputBuffer := fun _ => 0
  pos := 0
  len := 0
  gHistory := fun _ _ => 0
  gHistoryCount := 0
  gHistoryIdx := -1
  gShellNeedsReset := false
  world := w
  accesses := []
  screen := []

theorem Shell.boot_sound (w : ω) : (Shell.boot w).Sound := by
  have hsize : (0 : Int) ≤ shellBufSize - 1 := by decide
  have hmax : (0 : Int) ≤ maxHistory := by decide
  have hidx : (-1 : Int) ≤ 0 := by decide
  refine ⟨⟨Int.le_refl 0, Int.le_refl 0, hsize, fun i hi => ?_⟩, Int.le_refl 0, hmax, hidx,
    Int.le_refl _, fun i h₀ hi => ?_⟩
  · cases hi
  · change i < 0 at hi
    omega

theorem Shell.Sound.enter (h : s.Sound) : (s.enter cmds).Sound := by
  rw [Shell.enter]
  split
  · have hsize : (0 : Int) ≤ shellBufSize - 1 := by decide
    have h₁ : Shell.Sound { s with gShellNeedsReset := false, pos := 0, len := 0 } :=
      ⟨⟨Int.le_refl 0, Int.le_refl 0, hsize, h.accesses⟩, h.count_nonneg, h.count_le, h.idx_le,
        h.idx_ge, h.rows⟩
    exact (h₁.clearBuffer.print _).print _
  · exact h

/-- Whatever is typed, the counters and the accesses stay in bounds exactly when no history key
loads a line longer than the present one. -/
theorem line_editor_bounded_iff (cmds : ShellCommands ω) (w : ω) (keys : List UInt8) :
    Throughout (Shell.key cmds) Shell.Bounded ((Shell.boot w).enter cmds) keys ↔
      EachStep (Shell.key cmds) Shell.Fits ((Shell.boot w).enter cmds) keys :=
  (Shell.boot_sound w).enter.throughout keys

/-- Commands that do nothing. -/
def idleCommands : ShellCommands Unit := ⟨fun _ _ => ((), []), fun _ => ascii "/"⟩

/-- `a`, Enter, up: the cursor stands behind a line of length zero. -/
theorem history_key_outruns_line :
    ¬ Throughout (Shell.key idleCommands) Shell.Bounded ((Shell.boot ()).enter idleCommands)
      [97, 10, 0x11] := by
  rintro ⟨-, -, -, h⟩
  exact absurd h.pos_le (by decide +kernel)

end

end KernelCustom
