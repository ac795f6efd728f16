import KernelCustom.KeyDecoding

namespace KernelCustom
open RingBuffer EventHistory
set_option autoImplicit true

/-- The codes that `read_line` and `shell_loop` take for up, down, left and right. -/
def editingCodes : List UInt8 := [0x11, 0x12, 0x13, 0x14]

/-- The arrow keys, by their extended make codes. -/
def arrowKeys : List UInt8 := [0x48, 0x50, 0x4B, 0x4D]

/-- Q, R, S and T, by their make codes. -/
def controlLetters : List UInt8 := [0x10, 0x13, 0x1F, 0x14]

/-- The four letters are keys of the scan code maps. -/
theorem controlLetters_key (h : b ∈ controlLetters) : IsKey b ∧ b.toNat < 84 := by
  simp only [controlLetters, List.mem_cons, List.not_mem_nil, or_false] at h
  rcases h with rfl | rfl | rfl | rfl <;> exact ⟨⟨by decide, by decide⟩, by decide⟩

theorem arrowCode_editing (b : UInt8) :
    (∃ code ∈ editingCodes, arrowCode b = some code) ↔ b ∈ arrowKeys := by
  constructor
  · rintro ⟨code, -, hcode⟩
    by_contra hb
    simp only [arrowKeys, List.mem_cons, List.not_mem_nil, or_false, not_or] at hb
    rw [arrowCode, if_neg hb.1, if_neg hb.2.1, if_neg hb.2.2.1, if_neg hb.2.2.2] at hcode
    cases hcode
  · intro hb
    simp only [arrowKeys, List.mem_cons, List.not_mem_nil, or_false] at hb
    rcases hb with rfl | rfl | rfl | rfl <;> exact ⟨_, by decide, rfl⟩

/-- In both maps a key gives an editing code exactly when it is one of the four letters and control
is down. -/
theorem controlCode_editing_iff (h : map = scanCodeMapNormal ∨ map = scanCodeMapShift)
    (ctrl : Bool) (b : UInt8) :
    controlCode ctrl (map.getD b.toNat 0) ∈ editingCodes ↔ ctrl = true ∧ b ∈ controlLetters := by
  have hrow : ∀ map ∈ [scanCodeMapNormal, scanCodeMapShift], ∀ ctrl, ∀ i < 84,
      controlCode ctrl (map.getD i 0) ∈ editingCodes ↔
        ctrl = true ∧ UInt8.ofNat i ∈ controlLetters := by
    decide
  have hlen : map.length = 84 := by
    rcases h with rfl | rfl <;> rfl
  by_cases hb : b.toNat < 84
  · rw [hrow map (by simpa using h) ctrl b.toNat hb, UInt8.ofNat_toNat]
  · rw [List.getD_eq_default _ _ (by omega)]
    refine iff_of_false ?_ fun hctrl => ?_
    · cases ctrl <;> decide
    · exact hb (controlLetters_key hctrl.2).2

/-- A scan code makes the driver push an editing code exactly when it ends an arrow event or is the
first make code of one of the four letters under control. -/
theorem Keyboard.pushed_editing_iff (k : Keyboard) (b : UInt8) :
    (∃ code ∈ editingCodes, k.pushed b = some code) ↔
      (k.gIsE0 = true ∧ b ∈ arrowKeys) ∨
      (k.gIsE0 = false ∧ (k.flag .lctrl || k.flag .rctrl) = true ∧ b ∈ controlLetters ∧
        k.gKeyDown b.toNat = false) := by
  have hchar : k.character b ∈ editingCodes ↔
      (k.flag .lctrl || k.flag .rctrl) = true ∧ b ∈ controlLetters := by
    rw [k.character_eq, controlCode_editing_iff]
    rw [scanCodeMap]
    split
    · exact .inr rfl
    · exact .inl rfl
  rw [pushed]
  by_cases hb : b = 0xE0
  · rw [if_pos hb, hb]
    refine iff_of_false ?_ ?_
    · rintro ⟨code, -, hcode⟩
      cases hcode
    · rintro (⟨-, hmem⟩ | ⟨-, -, hmem, -⟩) <;> exact absurd hmem (by decide)
  · rw [if_neg hb]
    by_cases hp : k.gIsE0 = true
    · rw [if_pos hp, arrowCode_editing, and_iff_right hp]
      exact (or_iff_left fun h => absurd (h.1.symm.trans hp) Bool.false_ne_true).symm
    · have hno : ¬ (k.gIsE0 = true ∧ b ∈ arrowKeys) := fun h => hp h.1
      rw [if_neg hp, or_iff_right hno, and_iff_right (Bool.eq_false_iff.2 hp)]
      constructor
      · rintro ⟨code, hcode, hsome⟩
        obtain ⟨hnone, hsome⟩ := (Option.ite_none_left_eq_some ..).1 hsome
        rw [← Option.some.inj hsome, hchar] at hcode
        exact ⟨hcode.1, hcode.2, Bool.eq_false_iff.2 fun h => hnone (.inr (.inr (.inl h)))⟩
      · rintro ⟨hctrl, hletter, hfree⟩
        have hcode := hchar.2 ⟨hctrl, hletter⟩
        obtain ⟨hkey, -⟩ := controlLetters_key hletter
        refine ⟨_, hcode, if_neg ?_⟩
        rintro (hmod | hmake | hheld | hzero)
        · exact hkey.2 hmod
        · exact hmake hkey.1
        · exact absurd (hfree.symm.trans hheld) Bool.false_ne_true
        · rw [hzero] at hcode
          exact absurd hcode (by decide)

/-- The next scan code is the first make code of one of the four letters while a control key is
down. -/
def FreshControl (bytes : List UInt8) (b : UInt8) : Prop :=
  prefixed bytes = false ∧
  (∃ m ∈ [Modifier.lctrl, .rctrl], lastOf m.make m.break (keyEvents bytes) = some m.make) ∧
  b ∈ controlLetters ∧ ¬ Outstanding (.plain b) (.plain (b + 0x80)) (keyEvents bytes)

/-- The editing codes of a run are due to arrow keys: those that go into the buffer, and so those
that come out of it. -/
structure EditsByArrows (inputs : List KeyInput) : Prop where
  pushed : ∀ pre status b post, inputs = pre ++ .interrupt status b :: post → status &&& 1 ≠ 0 →
    ∀ code ∈ editingCodes, (keyboardAfter pre).Pushes b (some code) →
      prefixed (fed pre) = true ∧ b ∈ arrowKeys
  popped : ∀ pre post, inputs = pre ++ .pop :: post →
    (keyboardBufferPop (keyboardAfter pre).buffer).1 ∈ editingCodes →
      ∃ a ∈ arrowKeys, .extended a ∈ keyEvents (fed pre)

def NoFreshControl (inputs : List KeyInput) : Prop :=
  ∀ pre status b post, inputs = pre ++ .interrupt status b :: post → status &&& 1 ≠ 0 →
    ¬ FreshControl (fed pre) b

theorem keyboardAfter_pushes_editing_iff (inputs : List KeyInput) (b : UInt8) :
    (∃ code ∈ editingCodes, (keyboardAfter inputs).Pushes b (some code)) ↔
      (prefixed (fed inputs) = true ∧ b ∈ arrowKeys) ∨ FreshControl (fed inputs) b := by
  have hdec : Decodes (keyboardAfter inputs) (fed inputs) := .after inputs
  simp only [Keyboard.pushes_iff]
  rw [Keyboard.pushed_editing_iff, hdec.pending, Bool.or_eq_true, hdec.flags, hdec.flags]
  refine or_congr_right (and_congr_right fun _ => ?_)
  simp only [List.mem_cons, List.not_mem_nil, or_false, exists_eq_or_imp, exists_eq_left]
  refine and_congr_right fun _ => and_congr_right fun hb => ?_
  rw [← hdec.held b (controlLetters_key hb).1, Bool.not_eq_true]

theorem keyboardAfter_filled (inputs : List KeyInput) :
    KeyBuffer.Filled (keyboardAfter inputs).buffer := by
  induction inputs using List.reverseRecOn with
  | nil => exact ⟨⟨by decide, by decide⟩, by decide⟩
  | append_singleton inputs input ih =>
    rw [keyboardAfter_concat]
    cases input with
    | interrupt status b => exact ih.handler status b
    | pop =>
      rcases ih.pop with ⟨-, hpop⟩ | ⟨-, hfilled, -⟩
      · rw [Keyboard.input, hpop]
        exact ih
      · exact hfilled

/-- What is in the buffer after a step was there before, or the step has pushed it. -/
theorem Keyboard.mem_contents_input {k : Keyboard} {input : KeyInput}
    (hk : KeyBuffer.Filled k.buffer)
    (hc : c ∈ Ring.contents (k.input input).buffer) :
    c ∈ Ring.contents k.buffer ∨
      ∃ status b, input = .interrupt status b ∧ status &&& 1 ≠ 0 ∧ k.Pushes b (some c) := by
  cases input with
  | pop =>
    left
    rcases hk.pop with ⟨-, hpop⟩ | ⟨-, -, hcons⟩
    · rw [Keyboard.input, hpop] at hc
      exact hc
    · rw [hcons]
      exact List.mem_cons_of_mem _ hc
  | interrupt status b =>
    rw [Keyboard.input] at hc
    by_cases hs : status &&& 1 ≠ 0
    · have hpushes := k.pushes_pushed b
      rw [show keyboardHandler k status b = keyboardHandler { k with buffer := k.buffer } status b
        from rfl, hpushes status k.buffer hs] at hc
      cases ho : k.pushed b with
      | none =>
        rw [ho] at hc
        exact .inl hc
      | some code =>
        rw [ho] at hc hpushes
        rcases hk.valid.contents_push code with happ | hsame
        · rcases List.mem_append.1 (happ ▸ hc) with hmem | hmem
          · exact .inl hmem
          · rw [← List.mem_singleton.1 hmem] at hpushes
            exact .inr ⟨status, b, rfl, hs, hpushes⟩
        · exact .inl (hsame ▸ hc)
    · rw [keyboardHandler, if_neg hs] at hc
      exact .inl hc

theorem NoFreshControl.left (h : NoFreshControl (pre ++ rest)) : NoFreshControl pre :=
  fun pre' status b post heq =>
    h pre' status b (post ++ rest) (by rw [heq, List.append_assoc, List.cons_append])

/-- A run without those keys leaves only codes of arrow keys in the buffer. -/
theorem NoFreshControl.contents (h : NoFreshControl inputs) :
    ∀ c ∈ Ring.contents (keyboardAfter inputs).buffer, c ∈ editingCodes →
      ∃ a ∈ arrowKeys, .extended a ∈ keyEvents (fed inputs) := by
  induction inputs using List.reverseRecOn with
  | nil => exact fun c hc => absurd hc List.not_mem_nil
  | append_singleton inputs input ih =>
    intro c hc hcode
    have hevents := keyEvents_concat (fed inputs)
    rw [keyboardAfter_concat] at hc
    rw [fed_concat]
    rcases Keyboard.mem_contents_input (keyboardAfter_filled inputs) hc with
      hmem | ⟨status, b, rfl, hs, hpushes⟩
    · obtain ⟨a, ha, hevent⟩ := ih h.left c hmem hcode
      refine ⟨a, ha, ?_⟩
      cases input.scancode? with
      | none =>
        rw [Option.toList_none, List.append_nil]
        exact hevent
      | some b =>
        rw [Option.toList_some, hevents b]
        exact List.mem_append_left _ hevent
    · have hor := (keyboardAfter_pushes_editing_iff inputs b).1 ⟨c, hcode, hpushes⟩
      obtain ⟨hprefixed, hb⟩ := hor.resolve_right (h inputs status b [] rfl hs)
      have hne : b ≠ 0xE0 := by
        rintro rfl
        exact absurd hb (by decide)
      refine ⟨b, hb, ?_⟩
      rw [KeyInput.scancode?, if_pos hs, Option.toList_some, hevents b, if_neg hne,
        if_pos hprefixed]
      exact List.mem_append_right _ List.mem_cons_self

/-- The editing codes of a run are due to arrow keys exactly when no step of it is such a key. -/
theorem edits_by_arrows_iff (inputs : List KeyInput) :
    EditsByArrows inputs ↔ NoFreshControl inputs := by
  constructor
  · intro h pre status b post heq hs hfresh
    obtain ⟨code, hcode, hpushes⟩ :=
      (keyboardAfter_pushes_editing_iff pre b).2 (.inr hfresh)
    have harrow := h.pushed pre status b post heq hs code hcode hpushes
    exact absurd (hfresh.1.symm.trans harrow.1) Bool.false_ne_true
  · intro h
    refine ⟨fun pre status b post heq hs code hcode hpushes => ?_, fun pre post heq hcode => ?_⟩
    · have hor := (keyboardAfter_pushes_editing_iff pre b).1 ⟨code, hcode, hpushes⟩
      exact hor.resolve_right (h pre status b post heq hs)
    · rw [heq] at h
      rcases (keyboardAfter_filled pre).pop with ⟨-, hpop⟩ | ⟨-, -, hcons⟩
      · have hzero : (0 : UInt8) ∉ editingCodes := by decide
        rw [hpop] at hcode
        exact absurd hcode hzero
      · exact h.left.contents _ (hcons ▸ List.mem_cons_self) hcode

/-- Ctrl+S gives what the left arrow gives. -/
theorem control_s_moves_cursor :
    ¬ EditsByArrows [.interrupt 1 0x1D, .interrupt 1 0x1F, .pop] := by
  intro h
  have harrow := h.popped [.interrupt 1 0x1D, .interrupt 1 0x1F] [] rfl (by decide)
  exact absurd harrow (by decide)

end KernelCustom
