import KernelCustom.KeyDecoding

namespace KernelCustom
open RingBuffer
set_option autoImplicit true

/-- The driver with an empty buffer. -/
def Keyboard.emptied (k : Keyboard) : Keyboard := { k with buffer := ⟨0, 0, fun _ => 0⟩ }

theorem Keyboard.emptied_ite {p : Prop} [Decidable p] {k k' l l' : Keyboard}
    (h : p → k.emptied = k'.emptied) (h' : ¬ p → l.emptied = l'.emptied) :
    (if p then k else l).emptied = (if p then k' else l').emptied := by
  by_cases hp : p
  · rw [if_pos hp, if_pos hp]
    exact h hp
  · rw [if_neg hp, if_neg hp]
    exact h' hp

theorem Keyboard.extended_emptied (k : Keyboard) (b : UInt8) :
    (k.extended b).emptied = (k.emptied.extended b).emptied := by
  iterate 8
    refine emptied_ite (fun _ => rfl) fun _ => ?_
  rfl

theorem Keyboard.plain_emptied (k : Keyboard) (b : UInt8) :
    (k.plain b).emptied = (k.emptied.plain b).emptied := by
  iterate 8
    refine emptied_ite (fun _ => rfl) fun _ => ?_
  refine emptied_ite (fun _ => ?_) fun _ => rfl
  refine emptied_ite (fun _ => rfl) fun _ => ?_
  exact emptied_ite (fun _ => rfl) fun _ => rfl

/-- What the driver makes of a scan code does not depend on the buffer. -/
theorem keyboardHandler_emptied (k : Keyboard) (status b : UInt8) :
    (keyboardHandler k status b).emptied = (keyboardHandler k.emptied status b).emptied := by
  refine Keyboard.emptied_ite (fun _ => ?_) fun _ => rfl
  refine Keyboard.emptied_ite (fun _ => rfl) fun _ => ?_
  exact Keyboard.emptied_ite (fun _ => k.extended_emptied b) fun _ => k.plain_emptied b

/-- The driver after some scan codes. -/
def Keyboard.after (k : Keyboard) (codes : List UInt8) : Keyboard :=
  codes.foldl (fun k b => keyboardHandler k 1 b) k

/-- The characters that some scan codes stand for. -/
def Keyboard.decoded (k : Keyboard) : List UInt8 → List UInt8
  | [] => []
  | b :: codes => (k.pushed b).toList ++ (keyboardHandler k 1 b).decoded codes

theorem Keyboard.after_append (k : Keyboard) (l l' : List UInt8) :
    k.after (l ++ l') = (k.after l).after l' := List.foldl_append

theorem Keyboard.decoded_append (k : Keyboard) (l l' : List UInt8) :
    k.decoded (l ++ l') = k.decoded l ++ (k.after l).decoded l' := by
  induction l generalizing k with
  | nil => rfl
  | cons b l ih => rw [List.cons_append, decoded, decoded, ih, List.append_assoc]; rfl

theorem Keyboard.decoded_concat (k : Keyboard) (codes : List UInt8) (b : UInt8) :
    k.decoded (codes ++ [b]) = k.decoded codes ++ ((k.after codes).pushed b).toList := by
  rw [decoded_append, decoded, decoded, List.append_nil]

/-- A full data port is all that counts of the status. -/
theorem keyboardHandler_status (k : Keyboard) (hs : status &&& 1 ≠ 0) (b : UInt8) :
    keyboardHandler k status b = keyboardHandler k 1 b := by
  rw [keyboardHandler_of_full k hs, keyboardHandler_of_full k (by decide)]

/-- No key is held down, and no prefix is pending. -/
structure Keyboard.Idle (k : Keyboard) : Prop where
  pending : k.gIsE0 = false
  keys : ∀ c, IsKey c → k.gKeyDown c.toNat = false

/-- No key is down that changes the meaning of another either. -/
structure Keyboard.AtRest (k : Keyboard) : Prop extends k.Idle where
  flags : ∀ m ∈ [Modifier.lshift, .rshift, .lctrl, .rctrl], k.flag m = false

theorem Machine.boot_atRest : Machine.boot.keyboard.AtRest :=
  ⟨⟨rfl, fun _ _ => rfl⟩, fun m _ => by cases m <;> rfl⟩

theorem Keyboard.Idle.handler {k : Keyboard} (h : k.Idle) (hb : b ≠ 0xE0) :
    keyboardHandler k 1 b = k.event (.plain b) := by
  rw [keyboardHandler_of_full k (by decide), if_neg hb, h.pending]
  rfl

theorem IsKey.ne_prefix (h : IsKey c) : c ≠ 0xE0 := by
  rintro rfl
  exact absurd h.1 (by decide)

theorem IsKey.break_not_lt (h : IsKey c) : ¬ c + 0x80 < 0x80 := by
  have hlt := h.break_toNat
  rw [UInt8.lt_iff_toNat_lt, hlt]
  simp only [UInt8.reduceToNat]
  omega

/-- A key that is no modifier leaves the modifiers, and its break code takes back its make code. -/
theorem Keyboard.Idle.pressed {k : Keyboard} (h : k.Idle) (hc : IsKey c) (hne : c + 0x80 ≠ 0xE0)
    (hchar : k.character c ≠ 0) :
    k.decoded [c, c + 0x80] = [k.character c] ∧ (k.after [c, c + 0x80]).Idle ∧
      ∀ m, (k.after [c, c + 0x80]).flag m = k.flag m := by
  have hmake := h.handler hc.ne_prefix
  have hpending : (k.event (.plain c)).gIsE0 = false := (k.event_gIsE0 c).1.trans h.pending
  have hbreak : keyboardHandler (k.event (.plain c)) 1 (c + 0x80) =
      (k.event (.plain c)).event (.plain (c + 0x80)) := by
    rw [keyboardHandler_of_full _ (by decide), if_neg hne, hpending]
    rfl
  have hafter : k.after [c, c + 0x80] = (k.event (.plain c)).event (.plain (c + 0x80)) := by
    rw [after, List.foldl_cons, List.foldl_cons, List.foldl_nil, hmake, hbreak]
  refine ⟨?_, ⟨?_, fun c' hc' => ?_⟩, fun m => ?_⟩
  · have hpush : k.pushed c = some (k.character c) := by
      rw [k.pushed_of_key hc h.pending, h.keys c hc]
      exact if_neg (by simp [hchar])
    have hnone : (k.event (.plain c)).pushed (c + 0x80) = none := by
      rw [pushed, if_neg hne, hpending, if_neg Bool.false_ne_true]
      exact if_pos (.inr (.inl hc.break_not_lt))
    rw [decoded, decoded, decoded, hmake, hpush, hnone]
    rfl
  · rw [hafter, ((k.event (.plain c)).event_gIsE0 (c + 0x80)).1]
    exact hpending
  · have hlt : c + 0x80 ≠ c' := by
      rintro rfl
      exact hc.break_not_lt hc'.1
    rw [hafter, event_gKeyDown _ hc', event_gKeyDown _ hc', h.keys c' hc']
    simp only [KeyEvent.plain.injEq, if_neg hlt, UInt8.add_left_inj]
    split
    · rfl
    · exact ite_self false
  · have hkey := fun e => ((k.event e).event_flag (.plain (c + 0x80)) m)
    rw [hafter, hkey, event_flag]
    have h₁ : ¬ KeyEvent.plain c = m.make := fun he => hc.2 (m.make_code he.symm)
    have h₂ : ¬ KeyEvent.plain c = m.break := fun he => hc.2 (m.break_code he.symm)
    have h₃ : ¬ KeyEvent.plain (c + 0x80) = m.make :=
      fun he => hc.break_not_modifier (m.make_code he.symm)
    have h₄ : ¬ KeyEvent.plain (c + 0x80) = m.break :=
      fun he => hc.break_not_modifier (m.break_code he.symm)
    rw [if_neg h₃, if_neg h₄, if_neg h₁, if_neg h₂]

/-- The scan codes of a key that is pressed and let go. -/
def pressed (i : Nat) : List UInt8 := [.ofNat i, .ofNat i + 0x80]

/-- How a character is typed: its key, with the left shift key around it where it needs that. -/
def stroke (c : UInt8) : List UInt8 :=
  match scanCodeMapNormal.findIdx? (· == c) with
  | some i => pressed i
  | none =>
    match scanCodeMapShift.findIdx? (· == c) with
    | some i => [0x2A] ++ pressed i ++ [0xAA]
    | none => []

def strokes (text : List UInt8) : List UInt8 := text.flatMap stroke

/-- The characters that some key has. -/
def Typeable (c : UInt8) : Prop := c ≠ 0 ∧ (c ∈ scanCodeMapNormal ∨ c ∈ scanCodeMapShift)

instance (c : UInt8) : Decidable (Typeable c) := inferInstanceAs (Decidable (_ ∧ _))

/-- No entry of the maps belongs to a modifier. -/
theorem map_entries (hmap : map = scanCodeMapNormal ∨ map = scanCodeMapShift) :
    ∀ i < map.length, map.getD i 0 ≠ 0 → UInt8.ofNat i < 0x80 ∧ UInt8.ofNat i ∉ modifierCodes ∧
      UInt8.ofNat i + 0x80 ≠ 0xE0 ∧ (UInt8.ofNat i).toNat = i := by
  rcases hmap with rfl | rfl <;> decide +kernel

theorem findIdx?_entry (hmap : map = scanCodeMapNormal ∨ map = scanCodeMapShift) (hc : c ≠ 0)
    (h : map.findIdx? (· == c) = some i) :
    IsKey (.ofNat i) ∧ UInt8.ofNat i + 0x80 ≠ 0xE0 ∧ map.getD (UInt8.ofNat i).toNat 0 = c := by
  obtain ⟨hi, heq, -⟩ := List.findIdx?_eq_some_iff_getElem.1 h
  have hentry : map.getD i 0 = c := by
    rw [List.getD_eq_getElem _ _ hi]
    exact beq_iff_eq.1 heq
  obtain ⟨hlt, hcode, hne, hindex⟩ := map_entries hmap i hi (hentry ▸ hc)
  exact ⟨⟨hlt, hcode⟩, hne, hindex.symm ▸ hentry⟩

theorem Keyboard.AtRest.character {k : Keyboard} (h : k.AtRest) (b : UInt8) :
    k.character b = scanCodeMapNormal.getD b.toNat 0 := by
  rw [k.character_eq, scanCodeMap, h.flags .lshift (by decide), h.flags .rshift (by decide),
    h.flags .lctrl (by decide), h.flags .rctrl (by decide), if_neg (by decide), controlCode,
    if_neg (by simp), if_neg (by simp)]

/-- A key without shift. -/
theorem Keyboard.AtRest.stroke_normal {k : Keyboard} (h : k.AtRest) (hc : c ≠ 0)
    (hi : scanCodeMapNormal.findIdx? (· == c) = some i) :
    k.decoded (KernelCustom.pressed i) = [c] ∧ (k.after (KernelCustom.pressed i)).AtRest := by
  obtain ⟨hkey, hne, hentry⟩ := findIdx?_entry (.inl rfl) hc hi
  have hchar : k.character (.ofNat i) = c := (h.character _).trans hentry
  obtain ⟨hdecoded, hidle, hflags⟩ := h.toIdle.pressed hkey hne (hchar.symm ▸ hc)
  rw [hchar] at hdecoded
  exact ⟨hdecoded, hidle, fun m hm => (hflags m).trans (h.flags m hm)⟩

/-- The driver while the left shift key is down. -/
def Keyboard.shifted (k : Keyboard) : Keyboard := { k with gLshiftDown := true }

theorem Keyboard.Idle.pushed_modifier {k : Keyboard} (h : k.Idle) (hb : b ∈ modifierCodes) :
    k.pushed b = none := by
  have hne : b ≠ 0xE0 := by
    rintro rfl
    exact absurd hb (by decide)
  rw [pushed, if_neg hne, h.pending, if_neg Bool.false_ne_true]
  exact if_pos (.inl hb)

theorem Keyboard.AtRest.shifted_character {k : Keyboard} (h : k.AtRest) (b : UInt8) :
    k.shifted.character b = scanCodeMapShift.getD b.toNat 0 := by
  have hctrl : (k.shifted.flag .lctrl || k.shifted.flag .rctrl) = false :=
    Bool.or_eq_false_iff.2 ⟨h.flags .lctrl (by decide), h.flags .rctrl (by decide)⟩
  rw [character_eq, scanCodeMap, if_pos (.inl rfl), hctrl, controlCode, if_neg (by simp),
    if_neg (by simp)]

/-- A key with the left shift key around it. -/
theorem Keyboard.AtRest.stroke_shift {k : Keyboard} (h : k.AtRest) (hc : c ≠ 0)
    (hi : scanCodeMapShift.findIdx? (· == c) = some i) :
    k.decoded ([0x2A] ++ KernelCustom.pressed i ++ [0xAA]) = [c] ∧
      (k.after ([0x2A] ++ KernelCustom.pressed i ++ [0xAA])).AtRest := by
  obtain ⟨hkey, hne, hentry⟩ := findIdx?_entry (.inr rfl) hc hi
  have hchar : k.shifted.character (.ofNat i) = c := (h.shifted_character _).trans hentry
  have hshifted : k.shifted.Idle := ⟨h.pending, h.keys⟩
  obtain ⟨hdecoded, hidle, hflags⟩ := hshifted.pressed hkey hne (hchar.symm ▸ hc)
  rw [hchar] at hdecoded
  have hstart : k.after [0x2A] = k.shifted := by
    change keyboardHandler k 1 0x2A = k.shifted
    rw [h.handler (by decide)]
    rfl
  have hend : (k.shifted.after (KernelCustom.pressed i)).after [0xAA] =
      { k.shifted.after (KernelCustom.pressed i) with gLshiftDown := false } := by
    change keyboardHandler (k.shifted.after (KernelCustom.pressed i)) 1 0xAA = _
    exact (hidle.handler (b := 0xAA) (by decide)).trans rfl
  have hfirst : k.decoded [0x2A] = [] := by
    rw [decoded, decoded, h.pushed_modifier (by decide)]
    rfl
  have hlast : (k.shifted.after (KernelCustom.pressed i)).decoded [0xAA] = [] := by
    rw [decoded, decoded]
    exact (List.append_nil _).trans (congrArg Option.toList (hidle.pushed_modifier (by decide)))
  rw [decoded_append, decoded_append, after_append, after_append, after_append, hstart, hend,
    hfirst, hlast, List.append_nil, List.nil_append]
  refine ⟨hdecoded, ⟨hidle.pending, hidle.keys⟩, fun m hm => ?_⟩
  have hsame := (hflags m).symm
  have hrest := h.flags m hm
  cases m with
  | lshift => rfl
  | _ => exact hsame.symm.trans hrest

/-- Typing a character gives the character. -/
theorem Keyboard.AtRest.stroke {k : Keyboard} (h : k.AtRest) (hc : Typeable c) :
    k.decoded (stroke c) = [c] ∧ (k.after (KernelCustom.stroke c)).AtRest := by
  rw [KernelCustom.stroke]
  split
  · next i hi => exact h.stroke_normal hc.1 hi
  · next hnormal =>
    split
    · next i hi => exact h.stroke_shift hc.1 hi
    · next hshift =>
      rw [List.findIdx?_eq_none_iff] at hnormal hshift
      rcases hc.2 with hmem | hmem
      · exact absurd (hnormal c hmem) (by simp)
      · exact absurd (hshift c hmem) (by simp)

/-- Typing a text gives the text. -/
theorem Keyboard.AtRest.strokes {k : Keyboard} (h : k.AtRest) (ht : ∀ c ∈ text, Typeable c) :
    k.decoded (strokes text) = text ∧ (k.after (KernelCustom.strokes text)).AtRest := by
  induction text generalizing k with
  | nil => exact ⟨rfl, h⟩
  | cons c text ih =>
    obtain ⟨hfirst, hrest⟩ := h.stroke (ht c List.mem_cons_self)
    obtain ⟨hdecoded, hafter⟩ := ih hrest fun c' hc' => ht c' (List.mem_cons_of_mem _ hc')
    rw [KernelCustom.strokes, List.flatMap_cons, decoded_append, after_append, hfirst]
    exact ⟨congrArg (c :: ·) hdecoded, hafter⟩

theorem typeable_of_printable (h : 32 ≤ c) (h' : c ≤ 126) : Typeable c := by
  have hall : ∀ n < 95, Typeable (.ofNat (n + 32)) := by decide +kernel
  have hlow : 32 ≤ c.toNat := UInt8.le_iff_toNat_le.1 h
  have hhigh : c.toNat ≤ 126 := UInt8.le_iff_toNat_le.1 h'
  have hc := hall (c.toNat - 32) (by omega)
  rwa [Nat.sub_add_cancel hlow, UInt8.ofNat_toNat] at hc

end KernelCustom
