import KernelCustom.KeyWait
import KernelCustom.EventHistory

namespace KernelCustom
open RingBuffer EventHistory
set_option autoImplicit true

/-- A key event: a code of its own, or the code behind a run of 0xE0. -/
inductive KeyEvent where
  | plain (code : UInt8)
  | extended (code : UInt8)
  deriving DecidableEq

/-- The events of a stream of scan codes. The flag says whether an 0xE0 has just come. -/
def groupKeys : Bool → List UInt8 → List KeyEvent
  | _, [] => []
  | pending, b :: bytes =>
    if b = 0xE0 then groupKeys true bytes
    else (if pending then .extended b else .plain b) :: groupKeys false bytes

def keyEvents (bytes : List UInt8) : List KeyEvent := groupKeys false bytes

/-- The code that comes next belongs to an extended event. -/
def prefixed (bytes : List UInt8) : Bool := bytes.getLast? = some 0xE0

theorem groupKeys_concat (pending : Bool) (bytes : List UInt8) (b : UInt8) :
    groupKeys pending (bytes ++ [b]) = groupKeys pending bytes ++
      if b = 0xE0 then []
      else
        [if (if bytes = [] then pending else prefixed bytes) then .extended b else .plain b] := by
  induction bytes generalizing pending with
  | nil =>
    by_cases hb : b = 0xE0
    · rw [if_pos hb]
      exact if_pos hb
    · rw [if_neg hb, if_pos rfl]
      exact if_neg hb
  | cons c bytes ih =>
    have hlast : (if bytes = [] then decide (c = 0xE0) else prefixed bytes) =
        prefixed (c :: bytes) := by
      cases bytes with
      | nil => simp [prefixed]
      | cons d bytes => simp [prefixed]
    rw [List.cons_append, groupKeys, groupKeys, if_neg (List.cons_ne_nil c bytes), ← hlast]
    by_cases hc : c = 0xE0
    · rw [if_pos hc, if_pos hc, ih, decide_eq_true hc]
    · rw [if_neg hc, if_neg hc, ih, decide_eq_false hc, List.cons_append]

theorem keyEvents_concat (bytes : List UInt8) (b : UInt8) :
    keyEvents (bytes ++ [b]) = keyEvents bytes ++
      if b = 0xE0 then [] else [if prefixed bytes then .extended b else .plain b] := by
  rw [keyEvents, groupKeys_concat]
  cases bytes with
  | nil => rfl
  | cons c bytes => rw [if_neg (List.cons_ne_nil c bytes), keyEvents]

/-- The modifier keys, each with its make and its break event. -/
inductive Modifier where
  | lshift
  | rshift
  | lctrl
  | rctrl
  | lalt
  | ralt
  deriving DecidableEq

def Modifier.make : Modifier → KeyEvent
  | lshift => .plain 0x2A
  | rshift => .plain 0x36
  | lctrl => .plain 0x1D
  | rctrl => .extended 0x1D
  | lalt => .plain 0x38
  | ralt => .extended 0x38

def Modifier.break : Modifier → KeyEvent
  | lshift => .plain 0xAA
  | rshift => .plain 0xB6
  | lctrl => .plain 0x9D
  | rctrl => .extended 0x9D
  | lalt => .plain 0xB8
  | ralt => .extended 0xB8

/-- The flag that the driver keeps for a modifier. -/
def Keyboard.flag (k : Keyboard) : Modifier → Bool
  | .lshift => k.gLshiftDown
  | .rshift => k.gRshiftDown
  | .lctrl => k.gLctrlDown
  | .rctrl => k.gRctrlDown
  | .lalt => k.gLaltDown
  | .ralt => k.gRaltDown

/-- What the driver does with an event. -/
def Keyboard.event (k : Keyboard) : KeyEvent → Keyboard
  | .plain code => k.plain code
  | .extended code => k.extended code

/-- The plain codes of modifiers. -/
def modifierCodes : List UInt8 := [0x2A, 0x36, 0xAA, 0xB6, 0x1D, 0x9D, 0x38, 0xB8]

/-- What the driver does with a plain code of another key. -/
def Keyboard.key (k : Keyboard) (scancode : UInt8) : Keyboard :=
  if scancode < 0x80 then
    if k.gKeyDown scancode.toNat then k
    else
      let k := { k with gKeyDown := Function.update k.gKeyDown scancode.toNat true }
      let c := k.character scancode
      if c ≠ 0 then k.offer c else k
  else { k with gKeyDown := Function.update k.gKeyDown (scancode.toNat - 0x80) false }

/-- A modifier changes none of the other variables. -/
theorem Keyboard.plain_of_modifier (k : Keyboard) (h : code ∈ modifierCodes) :
    (k.plain code).gIsE0 = k.gIsE0 ∧ (k.plain code).gKeyDown = k.gKeyDown ∧
      (k.plain code).buffer = k.buffer := by
  simp only [modifierCodes, List.mem_cons, List.not_mem_nil, or_false] at h
  rcases h with rfl | rfl | rfl | rfl | rfl | rfl | rfl | rfl <;> exact ⟨rfl, rfl, rfl⟩

theorem Keyboard.plain_of_key (k : Keyboard) (h : code ∉ modifierCodes) :
    k.plain code = k.key code := by
  simp only [modifierCodes, List.mem_cons, List.not_mem_nil, or_false, not_or] at h
  obtain ⟨h₁, h₂, h₃, h₄, h₅, h₆, h₇, h₈⟩ := h
  rw [plain, if_neg h₁, if_neg h₂, if_neg h₃, if_neg h₄, if_neg h₅, if_neg h₆, if_neg h₇, if_neg h₈]
  rfl

/-- The extended codes that the driver knows. -/
def extendedCodes : List UInt8 := [0x48, 0x50, 0x4B, 0x4D, 0x1D, 0x9D, 0x38, 0xB8]

theorem Keyboard.extended_of_other (k : Keyboard) (h : code ∉ extendedCodes) :
    k.extended code = { k with gIsE0 := false } := by
  simp only [extendedCodes, List.mem_cons, List.not_mem_nil, or_false, not_or] at h
  obtain ⟨h₁, h₂, h₃, h₄, h₅, h₆, h₇, h₈⟩ := h
  simp only [extended, if_neg h₁, if_neg h₂, if_neg h₃, if_neg h₄, if_neg h₅, if_neg h₆, if_neg h₇,
    if_neg h₈]

/-- An extended code takes the prefix and leaves the key flags alone. -/
theorem Keyboard.extended_keeps (k : Keyboard) (code : UInt8) :
    (k.extended code).gIsE0 = false ∧ (k.extended code).gKeyDown = k.gKeyDown := by
  by_cases h : code ∈ extendedCodes
  · simp only [extendedCodes, List.mem_cons, List.not_mem_nil, or_false] at h
    rcases h with rfl | rfl | rfl | rfl | rfl | rfl | rfl | rfl <;> exact ⟨rfl, rfl⟩
  · rw [k.extended_of_other h]
    exact ⟨rfl, rfl⟩

/-- A key that is no modifier changes no modifier flag. -/
theorem Keyboard.key_keeps (k : Keyboard) (code : UInt8) :
    (k.key code).gIsE0 = k.gIsE0 ∧ ∀ m, (k.key code).flag m = k.flag m := by
  rw [key]
  split
  · split
    · exact ⟨rfl, fun _ => rfl⟩
    · dsimp only
      split
      · exact ⟨rfl, fun m => by cases m <;> rfl⟩
      · exact ⟨rfl, fun m => by cases m <;> rfl⟩
  · exact ⟨rfl, fun m => by cases m <;> rfl⟩

theorem Modifier.make_code {m : Modifier} (h : m.make = .plain code) : code ∈ modifierCodes := by
  cases m <;> cases h <;> decide

theorem Modifier.break_code {m : Modifier} (h : m.break = .plain code) : code ∈ modifierCodes := by
  cases m <;> cases h <;> decide

theorem Modifier.make_extended {m : Modifier} (h : m.make = .extended code) :
    code ∈ extendedCodes := by
  cases m <;> cases h <;> decide

theorem Modifier.break_extended {m : Modifier} (h : m.break = .extended code) :
    code ∈ extendedCodes := by
  cases m <;> cases h <;> decide

/-- The make event of a modifier sets its flag, the break event clears it, and no other event
touches it. -/
theorem Keyboard.event_flag (k : Keyboard) (e : KeyEvent) (m : Modifier) :
    (k.event e).flag m = if e = m.make then true else if e = m.break then false else k.flag m := by
  cases e with
  | plain code =>
    by_cases hcode : code ∈ modifierCodes
    · simp only [modifierCodes, List.mem_cons, List.not_mem_nil, or_false] at hcode
      rcases hcode with rfl | rfl | rfl | rfl | rfl | rfl | rfl | rfl <;> cases m <;> rfl
    · have hmake : ¬ KeyEvent.plain code = m.make := fun h => hcode (m.make_code h.symm)
      have hbreak : ¬ KeyEvent.plain code = m.break := fun h => hcode (m.break_code h.symm)
      rw [if_neg hmake, if_neg hbreak, event, k.plain_of_key hcode, (k.key_keeps code).2]
  | extended code =>
    by_cases hcode : code ∈ extendedCodes
    · simp only [extendedCodes, List.mem_cons, List.not_mem_nil, or_false] at hcode
      rcases hcode with rfl | rfl | rfl | rfl | rfl | rfl | rfl | rfl <;> cases m <;> rfl
    · have hmake : ¬ KeyEvent.extended code = m.make := fun h => hcode (m.make_extended h.symm)
      have hbreak : ¬ KeyEvent.extended code = m.break := fun h => hcode (m.break_extended h.symm)
      rw [if_neg hmake, if_neg hbreak, event, k.extended_of_other hcode]
      cases m <;> rfl

/-- No event leaves a prefix pending that was not. -/
theorem Keyboard.event_gIsE0 (k : Keyboard) (code : UInt8) :
    (k.event (.plain code)).gIsE0 = k.gIsE0 ∧ (k.event (.extended code)).gIsE0 = false := by
  refine ⟨?_, (k.extended_keeps code).1⟩
  by_cases hcode : code ∈ modifierCodes
  · exact (k.plain_of_modifier hcode).1
  · rw [event, k.plain_of_key hcode]
    exact (k.key_keeps code).1

/-- A key that is no modifier, by its make code. -/
def IsKey (code : UInt8) : Prop := code < 0x80 ∧ code ∉ modifierCodes

theorem IsKey.break_toNat (h : IsKey c) : (c + 0x80).toNat = c.toNat + 0x80 := by
  have hlt : c.toNat < 128 := UInt8.lt_iff_toNat_lt.1 h.1
  rw [UInt8.toNat_add]
  exact Nat.mod_eq_of_lt (by simp only [UInt8.reduceToNat]; omega)

/-- The break code of such a key is not that of a modifier. -/
theorem IsKey.break_not_modifier (h : IsKey c) : c + 0x80 ∉ modifierCodes := by
  intro hmem
  have hback : c = c + 0x80 - 0x80 := (UInt8.add_sub_cancel c 0x80).symm
  obtain ⟨hlt, hcode⟩ := h
  simp only [modifierCodes, List.mem_cons, List.not_mem_nil, or_false] at hmem
  rcases hmem with hb | hb | hb | hb | hb | hb | hb | hb
  all_goals
    rw [hb] at hback
    rw [hback] at hlt hcode
  all_goals first
    | exact absurd hlt (by decide)
    | exact hcode (by decide)

/-- The make code of a key sets its flag, the break code clears it, and no other event touches
it. -/
theorem Keyboard.event_gKeyDown (k : Keyboard) (h : IsKey c) (e : KeyEvent) :
    (k.event e).gKeyDown c.toNat =
      if e = .plain c then true else if e = .plain (c + 0x80) then false
      else k.gKeyDown c.toNat := by
  have hbreak := h.break_toNat
  have hlt : c.toNat < 128 := UInt8.lt_iff_toNat_lt.1 h.1
  cases e with
  | extended code =>
    rw [if_neg nofun, if_neg nofun, event, (k.extended_keeps code).2]
  | plain code =>
    simp only [event, KeyEvent.plain.injEq]
    by_cases hcode : code ∈ modifierCodes
    · have hmake : code ≠ c := fun heq => h.2 (heq ▸ hcode)
      have hbrk : code ≠ c + 0x80 := fun heq => h.break_not_modifier (heq ▸ hcode)
      rw [if_neg hmake, if_neg hbrk, (k.plain_of_modifier hcode).2.1]
    · rw [k.plain_of_key hcode, key]
      by_cases hmk : code < 0x80
      · have hcl : code.toNat < 128 := UInt8.lt_iff_toNat_lt.1 hmk
        have hbrk : code ≠ c + 0x80 := by
          intro heq
          rw [heq] at hcl
          omega
        rw [if_pos hmk, if_neg hbrk]
        by_cases heq : code = c
        · rw [if_pos heq, heq]
          split
          · next hheld => exact hheld
          · dsimp only
            split <;> exact Function.update_self ..
        · have hne : c.toNat ≠ code.toNat := fun hn => heq (UInt8.toNat_inj.1 hn).symm
          rw [if_neg heq]
          split
          · rfl
          · dsimp only
            split <;> exact Function.update_of_ne hne ..
      · have hcl : 128 ≤ code.toNat := UInt8.le_iff_toNat_le.1 (UInt8.not_lt.1 hmk)
        have hne : code ≠ c := by
          intro heq
          rw [heq] at hcl
          omega
        rw [if_neg hmk, if_neg hne]
        dsimp only
        by_cases heq : code = c + 0x80
        · rw [if_pos heq, heq, hbreak, Nat.add_sub_cancel]
          exact Function.update_self ..
        · rw [if_neg heq]
          refine Function.update_of_ne (fun hn => heq (UInt8.toNat_inj.1 ?_)) ..
          rw [hbreak]
          omega

end KernelCustom
