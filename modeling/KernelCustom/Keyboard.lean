import KernelCustom.Directory
import KernelCustom.RingBuffer

namespace KernelCustom
open RingBuffer
set_option autoImplicit true

/-- `kbd_buffer` with `head` and `tail`. -/
abbrev KeyBuffer := Ring 128 UInt8

def keyboardBufferPush (b : KeyBuffer) (c : UInt8) : KeyBuffer := b.push c

/-- `keyboard_buffer_pop`; an empty buffer gives 0. -/
def keyboardBufferPop (b : KeyBuffer) : UInt8 × KeyBuffer := b.pop.getD (0, b)

/-! The tables of scan codes, row by row. The codes behind the last row have no character. -/

def keypad : List UInt8 := ascii "789-456+1230."

def scanCodeMapNormal : List UInt8 :=
  [0, 0] ++ ascii "1234567890-=" ++ [8] ++
  [9] ++ ascii "qwertyuiop[]" ++ [10] ++
  [0] ++ ascii "asdfghjkl;" ++ [0x27, 0x60, 0, 0x5C] ++
  ascii "zxcvbnm,./" ++ [0, 0x2A, 0, 0x20] ++
  List.replicate 13 0 ++ keypad

def scanCodeMapShift : List UInt8 :=
  [0, 0] ++ ascii "!@#$%^&*()_+" ++ [8] ++
  [9] ++ ascii "QWERTYUIOP" ++ [0x7B, 0x7D, 10] ++
  [0] ++ ascii "ASDFGHJKL:" ++ [0x22, 0x7E, 0, 0x7C] ++
  ascii "ZXCVBNM<>?" ++ [0, 0x2A, 0, 0x20] ++
  List.replicate 13 0 ++ keypad

/-- The static variables of the keyboard driver. -/
structure Keyboard where
  gLshiftDown : Bool
  gRshiftDown : Bool
  gLctrlDown : Bool
  gRctrlDown : Bool
  gLaltDown : Bool
  gRaltDown : Bool
  gIsE0 : Bool
  gKeyDown : Nat → Bool
  buffer : KeyBuffer

/-- The character of a key, with shift and control as they are. -/
def Keyboard.character (k : Keyboard) (scancode : UInt8) : UInt8 :=
  let shift := k.gLshiftDown || k.gRshiftDown
  let ctrl := k.gLctrlDown || k.gRctrlDown
  let c := (if shift then scanCodeMapShift else scanCodeMapNormal).getD scancode.toNat 0
  if ctrl ∧ 0x61 ≤ c ∧ c ≤ 0x7A then c - 0x61 + 1
  else if ctrl ∧ 0x41 ≤ c ∧ c ≤ 0x5A then c - 0x41 + 1
  else c

def Keyboard.offer (k : Keyboard) (c : UInt8) : Keyboard :=
  { k with buffer := keyboardBufferPush k.buffer c }

/-- The code behind an 0xE0. -/
def Keyboard.extended (k : Keyboard) (scancode : UInt8) : Keyboard :=
  let k := { k with gIsE0 := false }
  if scancode = 0x48 then k.offer 0x11
  else if scancode = 0x50 then k.offer 0x12
  else if scancode = 0x4B then k.offer 0x13
  else if scancode = 0x4D then k.offer 0x14
  else if scancode = 0x1D then { k with gRctrlDown := true }
  else if scancode = 0x9D then { k with gRctrlDown := false }
  else if scancode = 0x38 then { k with gRaltDown := true }
  else if scancode = 0xB8 then { k with gRaltDown := false }
  else k

/-- A code of its own. A key that is held down counts once. -/
def Keyboard.plain (k : Keyboard) (scancode : UInt8) : Keyboard :=
  if scancode = 0x2A then { k with gLshiftDown := true }
  else if scancode = 0x36 then { k with gRshiftDown := true }
  else if scancode = 0xAA then { k with gLshiftDown := false }
  else if scancode = 0xB6 then { k with gRshiftDown := false }
  else if scancode = 0x1D then { k with gLctrlDown := true }
  else if scancode = 0x9D then { k with gLctrlDown := false }
  else if scancode = 0x38 then { k with gLaltDown := true }
  else if scancode = 0xB8 then { k with gLaltDown := false }
  else if scancode < 0x80 then
    if k.gKeyDown scancode.toNat then k
    else
      let k := { k with gKeyDown := Function.update k.gKeyDown scancode.toNat true }
      let c := k.character scancode
      if c ≠ 0 then k.offer c else k
  else { k with gKeyDown := Function.update k.gKeyDown (scancode.toNat - 0x80) false }

/-- `keyboard_handler`, with what it reads from the ports 0x64 and 0x60. -/
def keyboardHandler (k : Keyboard) (status scancode : UInt8) : Keyboard :=
  if status &&& 1 ≠ 0 then
    if scancode = 0xE0 then { k with gIsE0 := true }
    else if k.gIsE0 then k.extended scancode
    else k.plain scancode
  else k

/-- At most one key has been added to the buffer, and not a zero byte. -/
def Keyboard.Offers (k k' : Keyboard) : Prop :=
  k'.buffer = k.buffer ∨ ∃ c ≠ 0, k'.buffer = k.buffer.push c

theorem Keyboard.Offers.ite {p : Prop} [Decidable p] {k a b : Keyboard} (ha : p → k.Offers a)
    (hb : ¬ p → k.Offers b) : k.Offers (if p then a else b) := by
  by_cases hp : p
  · rw [if_pos hp]
    exact ha hp
  · rw [if_neg hp]
    exact hb hp

theorem Keyboard.extended_offers (k : Keyboard) (scancode : UInt8) :
    k.Offers (k.extended scancode) := by
  refine .ite (fun _ => .inr ⟨0x11, by decide, rfl⟩) fun _ => ?_
  refine .ite (fun _ => .inr ⟨0x12, by decide, rfl⟩) fun _ => ?_
  refine .ite (fun _ => .inr ⟨0x13, by decide, rfl⟩) fun _ => ?_
  refine .ite (fun _ => .inr ⟨0x14, by decide, rfl⟩) fun _ => ?_
  iterate 4
    refine .ite (fun _ => .inl rfl) fun _ => ?_
  exact .inl rfl

theorem Keyboard.plain_offers (k : Keyboard) (scancode : UInt8) :
    k.Offers (k.plain scancode) := by
  iterate 8
    refine .ite (fun _ => .inl rfl) fun _ => ?_
  refine .ite (fun _ => ?_) fun _ => .inl rfl
  refine .ite (fun _ => .inl rfl) fun _ => ?_
  exact .ite (fun hne => .inr ⟨_, hne, rfl⟩) fun _ => .inl rfl

/-- The handler adds at most one key, and never a zero byte. -/
theorem keyboardHandler_offers (k : Keyboard) (status scancode : UInt8) :
    k.Offers (keyboardHandler k status scancode) := by
  refine .ite (fun _ => ?_) fun _ => .inl rfl
  refine .ite (fun _ => .inl rfl) fun _ => ?_
  exact .ite (fun _ => k.extended_offers scancode) fun _ => k.plain_offers scancode

/-- The buffer is in order and holds no zero byte. -/
structure KeyBuffer.Filled (b : KeyBuffer) : Prop where
  valid : b.Valid
  nonzero : 0 ∉ b.contents

theorem KeyBuffer.Filled.push {b : KeyBuffer} (h : KeyBuffer.Filled b) (hc : c ≠ 0) :
    KeyBuffer.Filled (b.push c) := by
  refine ⟨h.valid.push c, ?_⟩
  rcases h.valid.contents_push c with he | he
  · rw [he]
    intro hm
    rcases List.mem_append.1 hm with hm | hm
    · exact h.nonzero hm
    · exact hc (List.mem_singleton.1 hm).symm
  · rw [he]
    exact h.nonzero

theorem KeyBuffer.Filled.handler {k : Keyboard} (h : KeyBuffer.Filled k.buffer)
    (status scancode : UInt8) : KeyBuffer.Filled (keyboardHandler k status scancode).buffer := by
  rcases keyboardHandler_offers k status scancode with he | ⟨c, hc, he⟩
  · rw [he]
    exact h
  · rw [he]
    exact h.push hc

/-- A pop gives 0 exactly when there is no key, and otherwise the oldest key. -/
theorem KeyBuffer.Filled.pop {b : KeyBuffer} (h : KeyBuffer.Filled b) :
    (b.contents = [] ∧ keyboardBufferPop b = (0, b)) ∨
      ((keyboardBufferPop b).1 ≠ 0 ∧ KeyBuffer.Filled (keyboardBufferPop b).2 ∧
        b.contents = (keyboardBufferPop b).1 :: (keyboardBufferPop b).2.contents) := by
  rw [keyboardBufferPop]
  cases hp : b.pop with
  | none => exact .inl ⟨h.valid.pop_none.1 hp, rfl⟩
  | some r =>
    obtain ⟨c, b'⟩ := r
    have hcons := h.valid.pop_some hp
    have hnz := h.nonzero
    rw [hcons] at hnz
    refine .inr ⟨(List.ne_of_not_mem_cons hnz).symm, ⟨h.valid.pop hp, ?_⟩, hcons⟩
    exact List.not_mem_of_not_mem_cons hnz

end KernelCustom
