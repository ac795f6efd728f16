import KernelCustom.KeyEvents

namespace KernelCustom
open RingBuffer EventHistory
set_option autoImplicit true

/-- What reaches the driver: an interrupt, with what the ports 0x64 and 0x60 give, or a call of
`keyboard_buffer_pop`. -/
inductive KeyInput where
  | interrupt (status scancode : UInt8)
  | pop
  deriving DecidableEq

def Keyboard.input (k : Keyboard) : KeyInput → Keyboard
  | .interrupt status scancode => keyboardHandler k status scancode
  | .pop => { k with buffer := (keyboardBufferPop k.buffer).2 }

/-- The driver after a run from the boot state. -/
def keyboardAfter (inputs : List KeyInput) : Keyboard :=
  inputs.foldl Keyboard.input Machine.boot.keyboard

/-- The scan code that an input brings. -/
def KeyInput.scancode? : KeyInput → Option UInt8
  | .interrupt status scancode => if status &&& 1 ≠ 0 then some scancode else none
  | .pop => none

/-- The scan codes of a run. -/
def fed (inputs : List KeyInput) : List UInt8 := inputs.filterMap KeyInput.scancode?

theorem keyboardAfter_concat (inputs : List KeyInput) (input : KeyInput) :
    keyboardAfter (inputs ++ [input]) = (keyboardAfter inputs).input input :=
  List.foldl_concat ..

theorem fed_concat (inputs : List KeyInput) (input : KeyInput) :
    fed (inputs ++ [input]) = fed inputs ++ input.scancode?.toList := by
  rw [fed, List.filterMap_append]
  rfl

theorem prefixed_concat (bytes : List UInt8) (b : UInt8) :
    prefixed (bytes ++ [b]) = decide (b = 0xE0) := by
  simp [prefixed]

theorem keyboardHandler_of_full (k : Keyboard) (hs : status &&& 1 ≠ 0) (b : UInt8) :
    keyboardHandler k status b =
      if b = 0xE0 then { k with gIsE0 := true }
      else k.event (if k.gIsE0 then .extended b else .plain b) := by
  rw [keyboardHandler, if_pos hs]
  congr 1
  split <;> rfl

theorem Modifier.make_ne_break (m : Modifier) : m.make ≠ m.break := by
  cases m <;> decide

/-- What the variables of the driver say about the scan codes so far. -/
structure Decodes (k : Keyboard) (bytes : List UInt8) : Prop where
  pending : k.gIsE0 = prefixed bytes
  flags : ∀ m, k.flag m = true ↔ lastOf m.make m.break (keyEvents bytes) = some m.make
  held : ∀ c, IsKey c → (k.gKeyDown c.toNat = true ↔
    Outstanding (.plain c) (.plain (c + 0x80)) (keyEvents bytes))

theorem Decodes.boot : Decodes Machine.boot.keyboard [] where
  pending := rfl
  flags m := by cases m <;> decide
  held _ _ := iff_of_false Bool.false_ne_true (not_outstanding_nil _ _)

theorem Decodes.withBuffer (h : Decodes k bytes) (b : KeyBuffer) :
    Decodes { k with buffer := b } bytes :=
  ⟨h.pending, h.flags, h.held⟩

/-- One more scan code. -/
theorem Decodes.concat (h : Decodes k bytes) (hs : status &&& 1 ≠ 0) (b : UInt8) :
    Decodes (keyboardHandler k status b) (bytes ++ [b]) := by
  rw [keyboardHandler_of_full k hs]
  have hev := keyEvents_concat bytes b
  by_cases hb : b = 0xE0
  · rw [if_pos hb, List.append_nil] at hev
    rw [if_pos hb]
    refine ⟨?_, ?_, ?_⟩
    · rw [prefixed_concat, decide_eq_true hb]
    · rw [hev]
      exact h.flags
    · rw [hev]
      exact h.held
  · rw [if_neg hb] at hev
    rw [if_neg hb, h.pending]
    refine ⟨?_, fun m => ?_, fun c hc => ?_⟩
    · rw [prefixed_concat, decide_eq_false hb]
      by_cases hp : prefixed bytes = true
      · rw [if_pos hp]
        exact (k.event_gIsE0 b).2
      · rw [if_neg hp, (k.event_gIsE0 b).1, h.pending]
        exact Bool.eq_false_iff.2 hp
    · rw [hev, k.event_flag, lastOf_concat_eq_iff m.make_ne_break, ← h.flags m, latch_eq_true_iff]
    · rw [hev, k.event_gKeyDown hc, outstanding_concat, ← h.held c hc, latch_eq_true_iff]

theorem Decodes.after (inputs : List KeyInput) : Decodes (keyboardAfter inputs) (fed inputs) := by
  induction inputs using List.reverseRecOn with
  | nil => exact .boot
  | append_singleton inputs input ih =>
    rw [keyboardAfter_concat, fed_concat]
    cases input with
    | pop =>
      rw [KeyInput.scancode?, Option.toList_none, List.append_nil]
      exact ih.withBuffer _
    | interrupt status b =>
      rw [Keyboard.input, KeyInput.scancode?]
      by_cases hs : status &&& 1 ≠ 0
      · rw [if_pos hs]
        exact ih.concat hs b
      · rw [if_neg hs, keyboardHandler, if_neg hs, Option.toList_none, List.append_nil]
        exact ih

/-- A scan code makes the handler push a character, or none, whatever the buffer holds. -/
def Keyboard.Pushes (k : Keyboard) (b : UInt8) (o : Option UInt8) : Prop :=
  ∀ status buffer, status &&& 1 ≠ 0 →
    (keyboardHandler { k with buffer } status b).buffer = o.elim buffer (keyboardBufferPush buffer)

/-- The code of an arrow key, by its extended make code. -/
def arrowCode (b : UInt8) : Option UInt8 :=
  if b = 0x48 then some 0x11
  else if b = 0x50 then some 0x12
  else if b = 0x4B then some 0x13
  else if b = 0x4D then some 0x14
  else none

/-- What a scan code makes the handler push. -/
def Keyboard.pushed (k : Keyboard) (b : UInt8) : Option UInt8 :=
  if b = 0xE0 then none
  else if k.gIsE0 then arrowCode b
  else if b ∈ modifierCodes ∨ ¬ b < 0x80 ∨ k.gKeyDown b.toNat ∨ k.character b = 0 then none
  else some (k.character b)

theorem Keyboard.extended_buffer (k : Keyboard) (b : UInt8) :
    (k.extended b).buffer = (arrowCode b).elim k.buffer (keyboardBufferPush k.buffer) := by
  by_cases hb : b ∈ extendedCodes
  · simp only [extendedCodes, List.mem_cons, List.not_mem_nil, or_false] at hb
    rcases hb with rfl | rfl | rfl | rfl | rfl | rfl | rfl | rfl <;> rfl
  · rw [k.extended_of_other hb]
    simp only [extendedCodes, List.mem_cons, List.not_mem_nil, or_false, not_or] at hb
    rw [arrowCode, if_neg hb.1, if_neg hb.2.1, if_neg hb.2.2.1, if_neg hb.2.2.2.1]
    rfl

theorem Keyboard.plain_buffer (k : Keyboard) (b : UInt8) :
    (k.plain b).buffer =
      if b ∈ modifierCodes ∨ ¬ b < 0x80 ∨ k.gKeyDown b.toNat ∨ k.character b = 0 then k.buffer
      else keyboardBufferPush k.buffer (k.character b) := by
  by_cases hb : b ∈ modifierCodes
  · rw [if_pos (.inl hb)]
    exact (k.plain_of_modifier hb).2.2
  · rw [k.plain_of_key hb, key]
    by_cases hmk : b < 0x80
    · rw [if_pos hmk]
      by_cases hheld : k.gKeyDown b.toNat = true
      · rw [if_pos hheld, if_pos (.inr (.inr (.inl hheld)))]
      · rw [if_neg hheld]
        by_cases hz : k.character b = 0
        · exact (congrArg buffer (if_neg (not_not.2 hz))).trans
            (if_pos (.inr (.inr (.inr hz)))).symm
        · have hnone := not_or.2 ⟨hb, not_or.2 ⟨not_not.2 hmk, not_or.2 ⟨hheld, hz⟩⟩⟩
          exact (congrArg buffer (if_pos hz)).trans (if_neg hnone).symm
    · rw [if_neg hmk, if_pos (.inr (.inl hmk))]

theorem Keyboard.pushes_pushed (k : Keyboard) (b : UInt8) : k.Pushes b (k.pushed b) := by
  intro status buffer hs
  rw [keyboardHandler_of_full _ hs, pushed]
  by_cases hb : b = 0xE0
  · rw [if_pos hb, if_pos hb]
    rfl
  · rw [if_neg hb, if_neg hb]
    by_cases hp : k.gIsE0 = true
    · rw [if_pos hp, if_pos hp]
      exact extended_buffer _ b
    · rw [if_neg hp, if_neg hp, event, plain_buffer]
      by_cases hnone : b ∈ modifierCodes ∨ ¬ b < 0x80 ∨ k.gKeyDown b.toNat ∨ k.character b = 0
      · rw [if_pos hnone]
        exact if_pos hnone
      · rw [if_neg hnone]
        exact if_neg hnone

/-- The handler's answer to a scan code is determined: an empty buffer shows it. -/
theorem Keyboard.Pushes.eq_pushed {k : Keyboard} (h : k.Pushes b o) : o = k.pushed b := by
  let empty : KeyBuffer := ⟨0, 0, fun _ => 0⟩
  have hv : empty.Valid := ⟨by decide, by decide⟩
  have hroom : (empty.head + 1) % 128 ≠ empty.tail := by decide
  have hnil : empty.contents = [] := hv.contents_eq_nil_iff.2 rfl
  have hcontents : ∀ o : Option UInt8,
      Ring.contents (o.elim empty (keyboardBufferPush empty)) = o.toList := by
    intro o
    cases o with
    | none => exact hnil
    | some c => exact (hv.contents_push_of_room hroom c).trans (by rw [hnil]; rfl)
  have heq := (h 1 empty (by decide)).symm.trans (k.pushes_pushed b 1 empty (by decide))
  have hlist := congrArg Ring.contents heq
  rw [hcontents, hcontents] at hlist
  have hhead := congrArg List.head? hlist
  rw [Option.head?_toList, Option.head?_toList] at hhead
  exact hhead

theorem Keyboard.pushes_iff (k : Keyboard) (b : UInt8) (o : Option UInt8) :
    k.Pushes b o ↔ k.pushed b = o := by
  constructor
  · exact fun h => h.eq_pushed.symm
  · rintro rfl
    exact k.pushes_pushed b

/-- The map that the driver takes the character of a key from. -/
def Keyboard.scanCodeMap (k : Keyboard) : List UInt8 :=
  if k.flag .lshift ∨ k.flag .rshift then scanCodeMapShift else scanCodeMapNormal

/-- A letter under a control key. -/
def controlCode (ctrl : Bool) (c : UInt8) : UInt8 :=
  if ctrl ∧ 0x61 ≤ c ∧ c ≤ 0x7A then c - 0x61 + 1
  else if ctrl ∧ 0x41 ≤ c ∧ c ≤ 0x5A then c - 0x41 + 1
  else c

theorem Keyboard.character_eq (k : Keyboard) (b : UInt8) :
    k.character b =
      controlCode (k.flag .lctrl || k.flag .rctrl) (k.scanCodeMap.getD b.toNat 0) := by
  have hmap : k.scanCodeMap =
      if (k.gLshiftDown || k.gRshiftDown) = true then scanCodeMapShift else scanCodeMapNormal :=
    ite_congr (Bool.or_eq_true ..).symm (fun _ => rfl) fun _ => rfl
  rw [hmap]
  rfl

theorem controlCode_eq_zero_iff (ctrl : Bool) (c : UInt8) : controlCode ctrl c = 0 ↔ c = 0 := by
  rw [controlCode]
  split
  · next h =>
    obtain ⟨-, hlow, -⟩ := h
    exact iff_of_false (by grind) (by grind)
  · split
    · next h =>
      obtain ⟨-, hlow, -⟩ := h
      exact iff_of_false (by grind) (by grind)
    · rfl

theorem Keyboard.pushed_of_key (k : Keyboard) (hc : IsKey c) (hp : k.gIsE0 = false) :
    k.pushed c =
      if k.gKeyDown c.toNat ∨ k.character c = 0 then none else some (k.character c) := by
  have hne : c ≠ 0xE0 := by
    rintro rfl
    exact absurd hc.1 (by decide)
  have hor := (or_iff_right (b := ¬ c < 0x80 ∨ k.gKeyDown c.toNat ∨ k.character c = 0) hc.2).trans
    (or_iff_right (not_not.2 hc.1))
  rw [pushed, if_neg hne, hp, if_neg Bool.false_ne_true]
  exact ite_congr (propext hor) (fun _ => rfl) fun _ => rfl

/-- In every run of the driver each modifier flag is set exactly when the last event of its key was
the make. A make code of another key offers a character exactly when the key is not held down and
has an entry in the map that the shift flags select. -/
theorem scan_codes_decoded (inputs : List KeyInput) :
    let k := keyboardAfter inputs
    let events := keyEvents (fed inputs)
    (∀ m, k.flag m = true ↔ lastOf m.make m.break events = some m.make) ∧
      ∀ c, IsKey c → prefixed (fed inputs) = false → ∃ o, k.Pushes c o ∧
        (o ≠ none ↔ ¬ Outstanding (.plain c) (.plain (c + 0x80)) events ∧
          k.scanCodeMap.getD c.toNat 0 ≠ 0) ∧
        ∀ ch ∈ o, ch = controlCode (k.flag .lctrl || k.flag .rctrl)
          (k.scanCodeMap.getD c.toNat 0) := by
  intro k events
  have hdec : Decodes k (fed inputs) := .after inputs
  refine ⟨hdec.flags, fun c hc hp => ⟨k.pushed c, k.pushes_pushed c, ?_, ?_⟩⟩
  · have hzero : k.character c = 0 ↔ k.scanCodeMap.getD c.toNat 0 = 0 := by
      rw [k.character_eq, controlCode_eq_zero_iff]
    rw [k.pushed_of_key hc (hdec.pending.trans hp), ← hdec.held c hc, Ne, Ne, ← hzero, ← not_or]
    by_cases hnone : k.gKeyDown c.toNat = true ∨ k.character c = 0
    · rw [if_pos hnone]
      exact iff_of_false (fun hne => hne rfl) (not_not.2 hnone)
    · rw [if_neg hnone]
      exact iff_of_true (Option.some_ne_none _) hnone
  · rw [k.pushed_of_key hc (hdec.pending.trans hp), ← k.character_eq c]
    intro ch hch
    by_cases hnone : k.gKeyDown c.toNat = true ∨ k.character c = 0
    · rw [if_pos hnone] at hch
      cases hch
    · rw [if_neg hnone] at hch
      exact (Option.some.inj hch).symm

theorem scan_codes_decoded_capital :
    (keyboardAfter [.interrupt 1 0x2A]).Pushes 0x1E (some 0x41) := by
  obtain ⟨o, hpushes, hsome, hchar⟩ :=
    (scan_codes_decoded [.interrupt 1 0x2A]).2 0x1E ⟨by decide, by decide⟩ (by decide)
  have hfree : ¬ Outstanding (.plain 0x1E) (.plain (0x1E + 0x80))
      (keyEvents (fed [.interrupt 1 0x2A])) := by
    rintro ⟨pre, post, heq, -⟩
    have hmem : KeyEvent.plain 0x1E ∈ keyEvents (fed [.interrupt 1 0x2A]) :=
      heq ▸ List.mem_append_right pre List.mem_cons_self
    exact absurd hmem (by decide)
  obtain ⟨ch, rfl⟩ := Option.ne_none_iff_exists'.1 (hsome.2 ⟨hfree, by decide⟩)
  rw [hchar ch rfl] at hpushes
  exact hpushes

end KernelCustom
