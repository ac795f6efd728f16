import Mathlib.Tactic.Common
import Mathlib.Algebra.Group.Nat.Defs
import Mathlib.Logic.Function.Basic

namespace X86
set_option autoImplicit true

inductive Reg where
  | eax | ecx | edx | ebx | esp | ebp | esi | edi
  deriving DecidableEq

inductive SegReg where
  | cs | ss | ds | es | fs | gs
  deriving DecidableEq

/-- A byte-addressed memory; addresses are taken modulo `2 ^ 32`. -/
abbrev Memory := UInt32 → UInt8

def byteOf (w : UInt32) (i : Nat) : UInt8 := .ofNat (w.toNat / 256 ^ i)

def load (m : Memory) (a : UInt32) : UInt32 :=
  .ofNat ((m a).toNat + 256 * (m (a + 1)).toNat + 65536 * (m (a + 2)).toNat +
    16777216 * (m (a + 3)).toNat)

def store (m : Memory) (a w : UInt32) : Memory := fun x =>
  if x = a then byteOf w 0
  else if x = a + 1 then byteOf w 1
  else if x = a + 2 then byteOf w 2
  else if x = a + 3 then byteOf w 3
  else m x

/-- The registers, the memory and the bytes that went to the ports. Of `eip` only its way through
gates and returns is followed, and of `eflags` not what arithmetic leaves in it. -/
structure State where
  reg : Reg → UInt32
  seg : SegReg → UInt16
  eip : UInt32
  eflags : UInt32
  mem : Memory
  ports : List (UInt8 × UInt8)

/-- A selector in the stack occupies a word. What stands in its upper half is up to the
processor. -/
structure Cpu where
  slot : UInt32 → UInt16 → UInt32
  slot_low : ∀ old sel, (slot old sel).toUInt16 = sel

/-- A processor that extends selectors with zeros. -/
def Cpu.zeroExtending : Cpu := ⟨fun _ sel => sel.toUInt32, fun _ sel => by simp⟩

def State.setReg (s : State) (r : Reg) (v : UInt32) : State :=
  { s with reg := Function.update s.reg r v }

def State.setSeg (s : State) (r : SegReg) (v : UInt16) : State :=
  { s with seg := Function.update s.seg r v }

def State.push (s : State) (w : UInt32) : State :=
  { s with
    reg := Function.update s.reg .esp (s.reg .esp - 4)
    mem := store s.mem (s.reg .esp - 4) w }

def State.pushSelector (cpu : Cpu) (s : State) (sel : UInt16) : State :=
  s.push (cpu.slot (load s.mem (s.reg .esp - 4)) sel)

/-- The word at the top of the stack. -/
def State.top (s : State) : UInt32 := load s.mem (s.reg .esp)

def State.drop (s : State) (bytes : UInt32) : State := s.setReg .esp (s.reg .esp + bytes)

/-- The order in which `pusha` stores the registers. -/
def pushaOrder : List Reg := [.eax, .ecx, .edx, .ebx, .esp, .ebp, .esi, .edi]

def State.pusha (s : State) : State := pushaOrder.foldl (fun t r => t.push (s.reg r)) s

def State.popa (s : State) : State :=
  { s with
    reg := fun r => match r with
      | .edi => load s.mem (s.reg .esp)
      | .esi => load s.mem (s.reg .esp + 4)
      | .ebp => load s.mem (s.reg .esp + 8)
      | .esp => s.reg .esp + 32
      | .ebx => load s.mem (s.reg .esp + 16)
      | .edx => load s.mem (s.reg .esp + 20)
      | .ecx => load s.mem (s.reg .esp + 24)
      | .eax => load s.mem (s.reg .esp + 28) }

/-- The instructions of interrupt stubs. A call takes the effect of the function that is called,
from the call to its return. -/
inductive Instr where
  | cli
  | pusha
  | popa
  | pushSeg (r : SegReg)
  | popSeg (r : SegReg)
  | pushEsp
  | pushImm (w : UInt32)
  | movAx (w : UInt16)
  | movAl (b : UInt8)
  | movSegAx (r : SegReg)
  | call (f : State → State)
  | addEsp (n : UInt32)
  | outAl (port : UInt8)
  | iret

/-- The privilege level in a selector. -/
def level (sel : UInt16) : UInt16 := sel &&& 3

/-- A return to an outer level also takes the stack from the frame. -/
def State.iret (s : State) : State :=
  let esp := s.reg .esp
  let cs := (load s.mem (esp + 4)).toUInt16
  let s' := { s with eip := load s.mem esp, eflags := load s.mem (esp + 8) }
  if level (s.seg .cs) < level cs then
    ((s'.setSeg .cs cs).setSeg .ss (load s.mem (esp + 16)).toUInt16).setReg .esp
      (load s.mem (esp + 12))
  else (s'.setSeg .cs cs).setReg .esp (esp + 12)

/-- A word with its lower half replaced. -/
def withLow16 (v : UInt32) (w : UInt16) : UInt32 := .ofNat (v.toNat / 65536 * 65536 + w.toNat)

/-- A word with its lowest byte replaced. -/
def withLow8 (v : UInt32) (b : UInt8) : UInt32 := .ofNat (v.toNat / 256 * 256 + b.toNat)

def exec (cpu : Cpu) (s : State) : Instr → State
  | .cli => { s with eflags := s.eflags &&& ~~~0x200 }
  | .pusha => s.pusha
  | .popa => s.popa
  | .pushSeg r => s.pushSelector cpu (s.seg r)
  | .popSeg r => (s.setSeg r s.top.toUInt16).drop 4
  | .pushEsp => s.push (s.reg .esp)
  | .pushImm w => s.push w
  | .movAx w => s.setReg .eax (withLow16 (s.reg .eax) w)
  | .movAl b => s.setReg .eax (withLow8 (s.reg .eax) b)
  | .movSegAx r => s.setSeg r (s.reg .eax).toUInt16
  | .call f => f s
  | .addEsp n => s.drop n
  | .outAl port => { s with ports := s.ports ++ [(port, (s.reg .eax).toUInt8)] }
  | .iret => s.iret

def run (cpu : Cpu) (code : List Instr) (s : State) : State := code.foldl (exec cpu) s

def Instr.isCall : Instr → Bool
  | .call _ => true
  | _ => false

def Instr.isIret : Instr → Bool
  | .iret => true
  | _ => false

/-- The state at the first call of some code. -/
def atCall (cpu : Cpu) (code : List Instr) (s : State) : State :=
  run cpu (code.takeWhile fun i => !i.isCall) s

/-- The state at the first `iret` of some code. -/
def atIret (cpu : Cpu) (code : List Instr) (s : State) : State :=
  run cpu (code.takeWhile fun i => !i.isIret) s

/-- A gate: where the handler lies and the stack that the TSS has for its level. -/
structure Gate where
  cs : UInt16
  eip : UInt32
  ss0 : UInt16
  esp0 : UInt32

/-- What the processor does when it takes an interrupt: from an outer level it switches the stack
and saves the old one, and then saves flags and address. -/
def State.interrupt (cpu : Cpu) (gate : Gate) (s : State) : State :=
  let t :=
    if level gate.cs < level (s.seg .cs) then
      (((s.setSeg .ss gate.ss0).setReg .esp gate.esp0).pushSelector cpu (s.seg .ss)).push
        (s.reg .esp)
    else s
  let t := ((t.push s.eflags).pushSelector cpu (s.seg .cs)).push s.eip
  { t.setSeg .cs gate.cs with eip := gate.eip, eflags := s.eflags &&& ~~~0x200 }

/-! Words in memory. -/

theorem store_apply_of_far (m : Memory) (w : UInt32) (h : 4 ≤ (x - a).toNat) :
    store m a w x = m x := by
  have hne : ∀ j : UInt32, j.toNat < 4 → x ≠ a + j := by
    rintro j hj rfl
    have hsub : a + j - a = j := by grind
    rw [hsub] at h
    omega
  have h₀ := hne 0 (by decide)
  rw [UInt32.add_zero] at h₀
  simp only [store, h₀, hne 1 (by decide), hne 2 (by decide), hne 3 (by decide), if_false]

theorem load_store_self (m : Memory) (a w : UInt32) : load (store m a w) a = w := by
  have h₁ : a + 1 ≠ a := by grind
  have h₂ : a + 2 ≠ a ∧ a + 2 ≠ a + 1 := by grind
  have h₃ : a + 3 ≠ a ∧ a + 3 ≠ a + 1 ∧ a + 3 ≠ a + 2 := by grind
  apply UInt32.toNat_inj.1
  have hw := w.toNat_lt
  simp only [load, store, ↓reduceIte, h₁, h₂.1, h₂.2, h₃.1, h₃.2.1, h₃.2.2, byteOf,
    UInt8.toNat_ofNat', UInt32.toNat_ofNat']
  omega

theorem load_store_of_far (m : Memory) (w : UInt32) (h : 4 ≤ (b - a).toNat)
    (h' : (b - a).toNat ≤ 4294967292) : load (store m a w) b = load m b := by
  have hshift : ∀ j : UInt32, j.toNat < 4 → store m a w (b + j) = m (b + j) := by
    intro j hj
    refine store_apply_of_far m w ?_
    have ha := a.toNat_lt
    have hb := b.toNat_lt
    simp only [UInt32.toNat_sub, UInt32.toNat_add] at h h' ⊢
    omega
  have h₀ := hshift 0 (by decide)
  rw [UInt32.add_zero] at h₀
  rw [load, load, h₀, hshift 1 (by decide), hshift 2 (by decide), hshift 3 (by decide)]

theorem toUInt16_withLow16 (v : UInt32) (w : UInt16) : (withLow16 v w).toUInt16 = w := by
  have hw := w.toNat_lt
  apply UInt16.toNat_inj.1
  rw [withLow16, UInt32.toNat_toUInt16, UInt32.toNat_ofNat']
  omega

/-! The stack as a list. -/

/-- What a word of the stack is known to hold. -/
inductive Slot where
  | word (w : UInt32)
  | selector (sel : UInt16)

def Slot.Fits : Slot → UInt32 → Prop
  | .word w, v => v = w
  | .selector sel, v => v.toUInt16 = sel

/-- The words from an address on hold what a list says, the first lowest. -/
structure HoldsSlots (m : Memory) (a : UInt32) (l : List Slot) : Prop where
  length_lt : l.length < 1073741824
  fits : ∀ i (x : Slot), l[i]? = some x → x.Fits (load m (a + 4 * .ofNat i))

theorem HoldsSlots.nil (m : Memory) (a : UInt32) : HoldsSlots m a [] :=
  ⟨by decide, fun _ _ h => by cases h⟩

theorem HoldsSlots.head (h : HoldsSlots m a (x :: l)) : x.Fits (load m a) := by
  have hx := h.fits 0 x rfl
  rwa [show a + 4 * UInt32.ofNat 0 = a by grind] at hx

theorem offset_succ (a : UInt32) (i : Nat) :
    a + 4 + 4 * UInt32.ofNat i = a + 4 * UInt32.ofNat (i + 1) := by
  rw [UInt32.ofNat_add]
  grind

theorem HoldsSlots.tail (h : HoldsSlots m a (x :: l)) : HoldsSlots m (a + 4) l := by
  refine ⟨Nat.lt_of_succ_lt h.length_lt, ?_⟩
  intro i y hy
  rw [offset_succ]
  exact h.fits (i + 1) y hy

theorem HoldsSlots.drop (h : HoldsSlots m a l) (n : Nat) :
    HoldsSlots m (a + 4 * .ofNat n) (l.drop n) := by
  refine ⟨?_, ?_⟩
  · have hlen := h.length_lt
    rw [List.length_drop]
    omega
  · intro i y hy
    rw [List.getElem?_drop] at hy
    have hfits := h.fits _ y hy
    rw [UInt32.ofNat_add] at hfits
    rwa [show a + 4 * UInt32.ofNat n + 4 * UInt32.ofNat i =
      a + 4 * (UInt32.ofNat n + UInt32.ofNat i) by grind]

/-- A push leaves the words above it alone. -/
theorem HoldsSlots.push (h : HoldsSlots m a l) (hl : l.length + 1 < 1073741824) (hx : x.Fits w) :
    HoldsSlots (store m (a - 4) w) (a - 4) (x :: l) := by
  refine ⟨hl, ?_⟩
  intro i y hy
  cases i with
  | zero =>
    rw [show a - 4 + 4 * UInt32.ofNat 0 = a - 4 by grind, load_store_self]
    rw [List.getElem?_cons_zero, Option.some.injEq] at hy
    exact hy ▸ hx
  | succ i =>
    rw [List.getElem?_cons_succ] at hy
    obtain ⟨hi, -⟩ := List.getElem?_eq_some_iff.1 hy
    have hdist : (a - 4 + 4 * UInt32.ofNat (i + 1) - (a - 4)).toNat = 4 * (i + 1) := by
      rw [show a - 4 + 4 * UInt32.ofNat (i + 1) - (a - 4) = 4 * UInt32.ofNat (i + 1) by grind,
        UInt32.toNat_mul, UInt32.toNat_ofNat']
      simp only [UInt32.reduceToNat]
      omega
    have hfar := load_store_of_far m w (a := a - 4) (b := a - 4 + 4 * UInt32.ofNat (i + 1))
      (by rw [hdist]; omega) (by rw [hdist]; omega)
    rw [hfar, show a - 4 + 4 * UInt32.ofNat (i + 1) = a + 4 * UInt32.ofNat i by
      rw [UInt32.ofNat_add]
      grind]
    exact h.fits i y hy

/-- What is known of a state: its registers and the words at the top of its stack. -/
structure View where
  reg : Reg → UInt32
  seg : SegReg → UInt16
  stack : List Slot

structure Agrees (s : State) (v : View) : Prop where
  reg : s.reg = v.reg
  seg : s.seg = v.seg
  stack : HoldsSlots s.mem (v.reg .esp) v.stack

def View.push (v : View) (x : Slot) : View :=
  { v with reg := Function.update v.reg .esp (v.reg .esp - 4), stack := x :: v.stack }

/-- The effect of an instruction on what is known, unless it is a call, a return or takes more from
the stack than is known of it. -/
def View.exec (v : View) : Instr → Option View
  | .cli => some v
  | .pusha => some (pushaOrder.foldl (fun u r => u.push (.word (v.reg r))) v)
  | .popa =>
    match v.stack with
    | .word edi :: .word esi :: .word ebp :: _ :: .word ebx :: .word edx :: .word ecx ::
        .word eax :: stack =>
      some { v with
        reg := fun r => match r with
          | .edi => edi
          | .esi => esi
          | .ebp => ebp
          | .esp => v.reg .esp + 32
          | .ebx => ebx
          | .edx => edx
          | .ecx => ecx
          | .eax => eax
        stack }
    | _ => none
  | .pushSeg r => some (v.push (.selector (v.seg r)))
  | .popSeg r =>
    match v.stack with
    | .selector sel :: stack =>
      some ⟨Function.update v.reg .esp (v.reg .esp + 4), Function.update v.seg r sel, stack⟩
    | _ => none
  | .pushEsp => some (v.push (.word (v.reg .esp)))
  | .pushImm w => some (v.push (.word w))
  | .movAx w => some { v with reg := Function.update v.reg .eax (withLow16 (v.reg .eax) w) }
  | .movAl b => some { v with reg := Function.update v.reg .eax (withLow8 (v.reg .eax) b) }
  | .movSegAx r => some { v with seg := Function.update v.seg r (v.reg .eax).toUInt16 }
  | .call _ => none
  | .addEsp n =>
    if n.toNat % 4 = 0 then
      some { v with
        reg := Function.update v.reg .esp (v.reg .esp + n), stack := v.stack.drop (n.toNat / 4) }
    else none
  | .outAl _ => some v
  | .iret => none

def View.run (v : View) : List Instr → Option View
  | [] => some v
  | i :: code => (v.exec i).bind fun v => v.run code

theorem Agrees.push (h : Agrees s v) (hl : v.stack.length + 1 < 1073741824) (hx : x.Fits w) :
    Agrees (s.push w) (v.push x) := by
  refine ⟨?_, h.seg, ?_⟩
  · simp only [State.push, View.push, h.reg]
  · simp only [State.push, View.push, h.reg, Function.update_self]
    exact h.stack.push hl hx

theorem Agrees.pushSelector (h : Agrees s v) (hl : v.stack.length + 1 < 1073741824) (cpu : Cpu)
    (sel : UInt16) : Agrees (s.pushSelector cpu sel) (v.push (.selector sel)) :=
  h.push hl (cpu.slot_low _ sel)

theorem Agrees.pushList (h : Agrees s v) (ws : List UInt32)
    (hl : v.stack.length + ws.length < 1073741824) :
    Agrees (ws.foldl State.push s) (ws.foldl (fun u w => u.push (.word w)) v) := by
  induction ws generalizing s v with
  | nil => exact h
  | cons w ws ih =>
    rw [List.length_cons] at hl
    refine ih (h.push (by omega) rfl) ?_
    simp only [View.push, List.length_cons]
    omega

theorem View.pushList_stack (v : View) (ws : List UInt32) :
    (ws.foldl (fun u w => u.push (.word w)) v).stack = ws.reverse.map .word ++ v.stack := by
  induction ws generalizing v with
  | nil => rfl
  | cons w ws ih =>
    rw [List.foldl_cons, ih, List.reverse_cons, List.map_append, List.append_assoc]
    rfl

theorem Agrees.pusha (h : Agrees s v) (hl : v.stack.length + 8 < 1073741824) :
    Agrees s.pusha (pushaOrder.foldl (fun u r => u.push (.word (v.reg r))) v) := by
  have hmap := h.pushList (pushaOrder.map s.reg) hl
  rw [List.foldl_map, List.foldl_map, h.reg] at hmap
  simp only [State.pusha, h.reg]
  exact hmap

theorem Agrees.popa (h : Agrees s v) (hv : v.exec .popa = some v') : Agrees s.popa v' := by
  obtain ⟨hreg, hseg, hstack⟩ := h
  simp only [View.exec] at hv
  split at hv
  · next edi esi ebp w ebx edx ecx eax stack heq =>
    cases hv
    rw [heq] at hstack
    have hedi : load s.mem (v.reg .esp) = edi := hstack.head
    have hesi : load s.mem (v.reg .esp + 4) = esi := hstack.fits 1 _ rfl
    have hebp : load s.mem (v.reg .esp + 8) = ebp := hstack.fits 2 _ rfl
    have hebx : load s.mem (v.reg .esp + 16) = ebx := hstack.fits 4 _ rfl
    have hedx : load s.mem (v.reg .esp + 20) = edx := hstack.fits 5 _ rfl
    have hecx : load s.mem (v.reg .esp + 24) = ecx := hstack.fits 6 _ rfl
    have heax : load s.mem (v.reg .esp + 28) = eax := hstack.fits 7 _ rfl
    refine ⟨?_, hseg, hstack.drop 8⟩
    funext r
    simp only [State.popa, hreg]
    cases r <;> first | assumption | rfl
  · cases hv

theorem Agrees.popSeg (h : Agrees s v) (hv : v.exec (.popSeg r) = some v') :
    Agrees ((s.setSeg r s.top.toUInt16).drop 4) v' := by
  obtain ⟨hreg, hseg, hstack⟩ := h
  simp only [View.exec] at hv
  split at hv
  · next sel stack heq =>
    cases hv
    rw [heq] at hstack
    have hsel : (load s.mem (v.reg .esp)).toUInt16 = sel := hstack.head
    refine ⟨?_, ?_, ?_⟩
    · simp only [State.drop, State.setReg, State.setSeg, hreg]
    · simp only [State.drop, State.setReg, State.setSeg, State.top, hreg, hseg, hsel]
    · simp only [Function.update_self]
      exact hstack.tail
  · cases hv

theorem Agrees.drop (h : Agrees s v) (hv : v.exec (.addEsp n) = some v') :
    Agrees (s.drop n) v' := by
  obtain ⟨hreg, hseg, hstack⟩ := h
  simp only [View.exec] at hv
  split at hv
  · next hn =>
    cases hv
    refine ⟨?_, hseg, ?_⟩
    · simp only [State.drop, State.setReg, hreg]
    · have hwords : n = 4 * .ofNat (n.toNat / 4) := by
        have hlt := n.toNat_lt
        apply UInt32.toNat_inj.1
        rw [UInt32.toNat_mul, UInt32.toNat_ofNat']
        simp only [UInt32.reduceToNat]
        omega
      simp only [Function.update_self]
      have hdrop := hstack.drop (n.toNat / 4)
      rwa [← hwords] at hdrop
  · cases hv

theorem Agrees.setReg (h : Agrees s v) (hr : r ≠ .esp) (w : UInt32) :
    Agrees (s.setReg r w) { v with reg := Function.update v.reg r w } := by
  obtain ⟨hreg, hseg, hstack⟩ := h
  refine ⟨?_, hseg, ?_⟩
  · simp only [State.setReg, hreg]
  · simp only [Function.update_of_ne hr.symm]
    exact hstack

/-- What is known of a state follows the instructions. -/
theorem Agrees.exec (h : Agrees s v) (hl : v.stack.length + 8 < 1073741824) (cpu : Cpu)
    (hv : v.exec i = some v') : Agrees (exec cpu s i) v' := by
  cases i with
  | cli =>
    cases hv
    exact ⟨h.reg, h.seg, h.stack⟩
  | pusha =>
    cases hv
    exact h.pusha hl
  | popa => exact h.popa hv
  | pushSeg r =>
    cases hv
    have hpush := h.pushSelector (by omega) cpu (v.seg r)
    rw [← congrFun h.seg r] at hpush ⊢
    exact hpush
  | popSeg r => exact h.popSeg hv
  | pushEsp =>
    cases hv
    exact h.push (by omega) (congrFun h.reg .esp)
  | pushImm w =>
    cases hv
    exact h.push (by omega) rfl
  | movAx w =>
    cases hv
    have hset := h.setReg (r := .eax) Reg.noConfusion (withLow16 (v.reg .eax) w)
    rw [← congrFun h.reg .eax] at hset ⊢
    exact hset
  | movAl b =>
    cases hv
    have hset := h.setReg (r := .eax) Reg.noConfusion (withLow8 (v.reg .eax) b)
    rw [← congrFun h.reg .eax] at hset ⊢
    exact hset
  | movSegAx r =>
    cases hv
    refine ⟨h.reg, ?_, h.stack⟩
    simp only [X86.exec, State.setSeg, h.reg, h.seg]
  | call f => cases hv
  | addEsp n => exact h.drop hv
  | outAl port =>
    cases hv
    exact ⟨h.reg, h.seg, h.stack⟩
  | iret => cases hv

/-- An instruction pushes at most eight words. -/
theorem View.exec_length {v : View} (hv : v.exec i = some v') :
    v'.stack.length ≤ v.stack.length + 8 := by
  cases i with
  | popa =>
    simp only [View.exec] at hv
    split at hv
    · next heq =>
      cases hv
      simp only [heq, List.length_cons]
      omega
    · cases hv
  | popSeg r =>
    simp only [View.exec] at hv
    split at hv
    · next heq =>
      cases hv
      simp only [heq, List.length_cons]
      omega
    · cases hv
  | addEsp n =>
    simp only [View.exec] at hv
    split at hv
    · cases hv
      simp only [List.length_drop]
      omega
    · cases hv
  | call f => cases hv
  | iret => cases hv
  | pusha | pushSeg r | pushEsp | pushImm w =>
    cases hv
    simp only [View.push, pushaOrder, List.foldl_cons, List.foldl_nil, List.length_cons]
    omega
  | cli | movAx w | movAl b | movSegAx r | outAl port =>
    cases hv
    exact Nat.le_add_right _ _

theorem Agrees.run (h : Agrees s v) (cpu : Cpu) (code : List Instr)
    (hl : v.stack.length + 8 * code.length < 1073741824) (hv : v.run code = some v') :
    Agrees (run cpu code s) v' := by
  induction code generalizing s v with
  | nil =>
    cases hv
    exact h
  | cons i code ih =>
    obtain ⟨u, hu, hrest⟩ := Option.bind_eq_some_iff.1 hv
    rw [List.length_cons] at hl
    have hlen := View.exec_length hu
    exact ih (h.exec (by omega) cpu hu) (by omega) hrest

/-! Saving and restoring registers. -/

theorem View.run_append (v : View) (code code' : List Instr) :
    v.run (code ++ code') = (v.run code).bind fun u => u.run code' := by
  induction code generalizing v with
  | nil => rfl
  | cons i code ih =>
    rw [List.cons_append, run, run, Option.bind_assoc]
    congr 1
    funext u
    exact ih u

/-- The words that `pusha` stores, from the top of the stack down. -/
def pushaSlots (reg : Reg → UInt32) : List Slot :=
  [.word (reg .edi), .word (reg .esi), .word (reg .ebp), .word (reg .esp), .word (reg .ebx),
    .word (reg .edx), .word (reg .ecx), .word (reg .eax)]

theorem pushaSlots_set_eax (reg : Reg → UInt32) (w : UInt32) :
    (pushaSlots reg).set 7 (.word w) = pushaSlots (Function.update reg .eax w) := by
  simp only [pushaSlots, Function.update_self, ne_eq, reduceCtorEq, not_false_eq_true,
    Function.update_of_ne]
  rfl

theorem View.pusha_spec (v : View) :
    ∃ u, v.exec .pusha = some u ∧ u.stack = pushaSlots v.reg ++ v.stack ∧
      u.reg .esp = v.reg .esp - 32 ∧ (∀ r, r ≠ .esp → u.reg r = v.reg r) ∧ u.seg = v.seg := by
  refine ⟨_, rfl, rfl, ?_, ?_, rfl⟩
  · simp only [pushaOrder, List.foldl, View.push, Function.update_self]
    grind
  · intro r hr
    simp only [pushaOrder, List.foldl, View.push, Function.update_of_ne hr]

theorem View.popa_spec (v : View) (old : Reg → UInt32) (h : v.stack = pushaSlots old ++ F) :
    ∃ u, v.exec .popa = some u ∧ u.stack = F ∧ u.reg .esp = v.reg .esp + 32 ∧
      (∀ r, r ≠ .esp → u.reg r = old r) ∧ u.seg = v.seg := by
  obtain ⟨reg, seg, stack⟩ := v
  subst h
  refine ⟨_, rfl, rfl, rfl, ?_, rfl⟩
  intro r hr
  cases r with
  | esp => exact absurd rfl hr
  | _ => rfl

theorem View.pushSegs_spec (v : View) (segs : List SegReg) :
    ∃ u, v.run (segs.map .pushSeg) = some u ∧
      u.stack = segs.reverse.map (fun r => .selector (v.seg r)) ++ v.stack ∧
      u.reg .esp = v.reg .esp - 4 * .ofNat segs.length ∧ (∀ r, r ≠ .esp → u.reg r = v.reg r) ∧
      u.seg = v.seg := by
  induction segs generalizing v with
  | nil => exact ⟨v, rfl, rfl, by simp, fun _ _ => rfl, rfl⟩
  | cons r segs ih =>
    obtain ⟨u, hrun, hstack, hesp, hreg, hseg⟩ := ih (v.push (.selector (v.seg r)))
    refine ⟨u, hrun, ?_, ?_, ?_, hseg⟩
    · rw [hstack, List.reverse_cons, List.map_append, List.append_assoc]
      rfl
    · rw [hesp, List.length_cons, UInt32.ofNat_add]
      simp only [View.push, Function.update_self]
      grind
    · intro r' hr'
      rw [hreg r' hr']
      exact Function.update_of_ne hr' _ _

theorem View.loadSegs_spec (v : View) (segs : List SegReg) :
    ∃ u, v.run (segs.map .movSegAx) = some u ∧ u.stack = v.stack ∧ u.reg = v.reg ∧
      ∀ r, r ∉ segs → u.seg r = v.seg r := by
  induction segs generalizing v with
  | nil => exact ⟨v, rfl, rfl, rfl, fun _ _ => rfl⟩
  | cons r segs ih =>
    obtain ⟨u, hrun, hstack, hreg, hseg⟩ :=
      ih { v with seg := Function.update v.seg r (v.reg .eax).toUInt16 }
    refine ⟨u, hrun, hstack, hreg, ?_⟩
    intro r' hr'
    obtain ⟨hne, hr'⟩ := not_or.1 (List.mem_cons.not.1 hr')
    rw [hseg r' hr']
    exact Function.update_of_ne hne _ _

theorem View.popSegs_spec (v : View) (segs : List SegReg) (sel : SegReg → UInt16)
    (h : v.stack = segs.map (fun r => .selector (sel r)) ++ F) :
    ∃ u, v.run (segs.map .popSeg) = some u ∧ u.stack = F ∧
      u.reg .esp = v.reg .esp + 4 * .ofNat segs.length ∧ (∀ r, r ≠ .esp → u.reg r = v.reg r) ∧
      ∀ r, u.seg r = if r ∈ segs then sel r else v.seg r := by
  induction segs generalizing v with
  | nil => exact ⟨v, rfl, h, by simp, fun _ _ => rfl, fun _ => rfl⟩
  | cons r segs ih =>
    have hexec : v.exec (.popSeg r) =
        some ⟨Function.update v.reg .esp (v.reg .esp + 4), Function.update v.seg r (sel r),
          segs.map (fun r => .selector (sel r)) ++ F⟩ := by
      simp only [View.exec, h, List.map_cons, List.cons_append]
    obtain ⟨u, hrun, hstack, hesp, hreg, hseg⟩ :=
      ih ⟨Function.update v.reg .esp (v.reg .esp + 4), Function.update v.seg r (sel r), _⟩ rfl
    refine ⟨u, ?_, hstack, ?_, ?_, ?_⟩
    · rw [List.map_cons, View.run, hexec, Option.bind_some, hrun]
    · rw [hesp, List.length_cons, UInt32.ofNat_add]
      simp only [Function.update_self]
      grind
    · intro r' hr'
      rw [hreg r' hr']
      exact Function.update_of_ne hr' _ _
    · intro r'
      rw [hseg r']
      by_cases hr : r' = r
      · subst hr
        simp only [List.mem_cons_self, if_true, Function.update_self, ite_self]
      · simp only [List.mem_cons, hr, false_or, Function.update_of_ne hr]

/-- How stubs begin: they save all registers and some segments, and load a selector. -/
def saveCode (segs data : List SegReg) (sel : UInt16) : List Instr :=
  .pusha :: (segs.map .pushSeg ++ .movAx sel :: data.map .movSegAx)

/-- How stubs end. -/
def restoreCode (segs : List SegReg) : List Instr := segs.reverse.map .popSeg ++ [.popa]

def savedSlots (segs : List SegReg) (reg : Reg → UInt32) (seg : SegReg → UInt16) : List Slot :=
  segs.reverse.map (fun r => .selector (seg r)) ++ pushaSlots reg

theorem View.save_spec (v : View) (segs data : List SegReg) (sel : UInt16) :
    ∃ u, v.run (saveCode segs data sel) = some u ∧
      u.stack = savedSlots segs v.reg v.seg ++ v.stack ∧
      u.reg .esp = v.reg .esp - 32 - 4 * .ofNat segs.length ∧
      (∀ r, r ∉ data → u.seg r = v.seg r) := by
  obtain ⟨u₁, hrun₁, hstack₁, hesp₁, -, hseg₁⟩ := v.pusha_spec
  obtain ⟨u₂, hrun₂, hstack₂, hesp₂, -, hseg₂⟩ := u₁.pushSegs_spec segs
  obtain ⟨u₃, hrun₃, hstack₃, hreg₃, hseg₃⟩ :=
    View.loadSegs_spec
      { u₂ with reg := Function.update u₂.reg .eax (withLow16 (u₂.reg .eax) sel) } data
  refine ⟨u₃, ?_, ?_, ?_, ?_⟩
  · rw [saveCode, View.run, hrun₁, Option.bind_some, View.run_append, hrun₂, Option.bind_some]
    exact hrun₃
  · rw [hstack₃, hstack₂, hstack₁, hseg₁, savedSlots, List.append_assoc]
  · have hne : Reg.esp ≠ Reg.eax := Reg.noConfusion
    rw [hreg₃]
    simp only [Function.update_of_ne hne]
    rw [hesp₂, hesp₁]
  · intro r hr
    rw [hseg₃ r hr]
    exact congrFun (hseg₂.trans hseg₁) r

/-- What was saved comes back. -/
theorem View.restore_spec (v : View) (segs : List SegReg) (old : Reg → UInt32)
    (sel : SegReg → UInt16) (h : v.stack = savedSlots segs old sel ++ F) :
    ∃ u, v.run (restoreCode segs) = some u ∧ u.stack = F ∧
      u.reg .esp = v.reg .esp + 4 * .ofNat segs.length + 32 ∧
      (∀ r, r ≠ .esp → u.reg r = old r) ∧ ∀ r, u.seg r = if r ∈ segs then sel r else v.seg r := by
  rw [savedSlots, List.append_assoc] at h
  obtain ⟨u₁, hrun₁, hstack₁, hesp₁, -, hseg₁⟩ := v.popSegs_spec segs.reverse sel h
  obtain ⟨u₂, hrun₂, hstack₂, hesp₂, hreg₂, hseg₂⟩ := u₁.popa_spec old hstack₁
  refine ⟨u₂, ?_, hstack₂, ?_, hreg₂, ?_⟩
  · rw [restoreCode, View.run_append, hrun₁, Option.bind_some, View.run, hrun₂]
    rfl
  · rw [hesp₂, hesp₁, List.length_reverse]
  · intro r
    rw [hseg₂, hseg₁]
    simp only [List.mem_reverse]

/-- The segments that a stub loads are among those that it saves. -/
theorem restored_seg {segs data : List SegReg} {seg sel : SegReg → UInt16}
    (hdata : ∀ r ∈ data, r ∈ segs)
    (hseg : ∀ r, r ∉ data → seg r = sel r) (r : SegReg) :
    (if r ∈ segs then sel r else seg r) = sel r := by
  split
  · rfl
  · next hr => exact hseg r fun hm => hr (hdata r hm)

theorem savedSlots_length (segs : List SegReg) (reg : Reg → UInt32) (sel : SegReg → UInt16) :
    (savedSlots segs reg sel).length = segs.length + 8 := by
  rw [savedSlots, List.length_append, List.length_map, List.length_reverse]
  rfl

theorem Agrees.save (h : Agrees s v) (cpu : Cpu) (segs data : List SegReg) (sel : UInt16)
    (hl : v.stack.length < 1000) (hsegs : segs.length + data.length < 1000) :
    ∃ u, Agrees (X86.run cpu (saveCode segs data sel) s) u ∧
      u.stack = savedSlots segs s.reg s.seg ++ v.stack ∧
      u.reg .esp = s.reg .esp - 32 - 4 * .ofNat segs.length ∧
      ∀ r, r ∉ data → u.seg r = s.seg r := by
  obtain ⟨u, hrun, hspec⟩ := v.save_spec segs data sel
  rw [← h.reg, ← h.seg] at hspec
  refine ⟨u, h.run cpu _ ?_ hrun, hspec⟩
  rw [saveCode, List.length_cons, List.length_append, List.length_cons, List.length_map,
    List.length_map]
  omega

theorem Agrees.restore (h : Agrees s v) (cpu : Cpu) (segs : List SegReg) (old : Reg → UInt32)
    (sel : SegReg → UInt16) (hstack : v.stack = savedSlots segs old sel ++ F)
    (hl : F.length < 1000) (hsegs : segs.length < 1000) :
    ∃ u, Agrees (X86.run cpu (restoreCode segs) s) u ∧ u.stack = F ∧
      u.reg .esp = v.reg .esp + 4 * .ofNat segs.length + 32 ∧
      (∀ r, r ≠ .esp → u.reg r = old r) ∧ ∀ r, u.seg r = if r ∈ segs then sel r else v.seg r := by
  obtain ⟨u, hrun, hspec⟩ := v.restore_spec segs old sel hstack
  refine ⟨u, h.run cpu _ ?_ hrun, hspec⟩
  rw [hstack, List.length_append, savedSlots_length, restoreCode, List.length_append,
    List.length_map, List.length_reverse, List.length_singleton]
  omega

/-! Calls of C functions. -/

/-- A C function under the cdecl convention. Of the words of its caller's stack, counted from the
arguments on, it changes none of the first `words` but those in `out`. -/
structure CFunction (words : Nat) (out : List Nat) where
  effect : State → State
  reg : ∀ s r, r ≠ .eax → r ≠ .ecx → r ≠ .edx → (effect s).reg r = s.reg r
  seg : ∀ s, (effect s).seg = s.seg
  stack : ∀ s i, i < words → i ∉ out →
    load (effect s).mem (s.reg .esp + 4 * .ofNat i) = load s.mem (s.reg .esp + 4 * .ofNat i)

/-- A C function that does nothing. -/
def CFunction.idle (words : Nat) (out : List Nat) : CFunction words out where
  effect := id
  reg := fun _ _ _ _ _ => rfl
  seg := fun _ => rfl
  stack := fun _ _ _ _ => rfl

/-- A stack in which some words have become those of a memory. -/
def setWords (m : Memory) (a : UInt32) (out : List Nat) (l : List Slot) : List Slot :=
  out.foldl (fun l i => l.set i (.word (load m (a + 4 * .ofNat i)))) l

theorem setWords_length (m : Memory) (a : UInt32) (out : List Nat) (l : List Slot) :
    (setWords m a out l).length = l.length := by
  induction out generalizing l with
  | nil => rfl
  | cons i out ih => exact (ih _).trans List.length_set

theorem setWords_getElem? (h : (setWords m a out l)[i]? = some x) :
    x = .word (load m (a + 4 * .ofNat i)) ∨ i ∉ out ∧ l[i]? = some x := by
  induction out generalizing l with
  | nil => exact .inr ⟨List.not_mem_nil, h⟩
  | cons j out ih =>
    rcases ih h with hx | ⟨hi, hx⟩
    · exact .inl hx
    · by_cases hij : j = i
      · subst hij
        rw [List.getElem?_set_self'] at hx
        cases hl : l[j]? with
        | none =>
          rw [hl] at hx
          cases hx
        | some y =>
          rw [hl] at hx
          exact .inl (Option.some.inj hx).symm
      · rw [List.getElem?_set_ne hij] at hx
        exact .inr ⟨fun hm => (List.mem_cons.1 hm).elim (fun he => hij he.symm) hi, hx⟩

/-- What is known behind a call that ends in a state. -/
def View.afterCall (v : View) (out : List Nat) (t : State) : View where
  reg := fun r => match r with
    | .eax => t.reg .eax
    | .ecx => t.reg .ecx
    | .edx => t.reg .edx
    | r => v.reg r
  seg := v.seg
  stack := setWords t.mem (v.reg .esp) out v.stack

theorem Agrees.call (h : Agrees s v) (f : CFunction words out) (hw : v.stack.length ≤ words) :
    Agrees (f.effect s) (v.afterCall out (f.effect s)) := by
  obtain ⟨hreg, hseg, hstack⟩ := h
  refine ⟨?_, ?_, ?_, ?_⟩
  · funext r
    have hr := f.reg s r
    rw [hreg] at hr
    cases r with
    | eax | ecx | edx => rfl
    | _ => exact hr Reg.noConfusion Reg.noConfusion Reg.noConfusion
  · exact (f.seg s).trans hseg
  · rw [View.afterCall, setWords_length]
    exact hstack.length_lt
  · intro i x hx
    simp only [View.afterCall] at hx ⊢
    rcases setWords_getElem? hx with rfl | ⟨hi, hx⟩
    · rfl
    · obtain ⟨hlt, -⟩ := List.getElem?_eq_some_iff.1 hx
      have hkeep := f.stack s i (Nat.lt_of_lt_of_le hlt hw) hi
      rw [hreg] at hkeep
      rw [hkeep]
      exact hstack.fits i x hx

/-! Gates and returns. -/

/-- What the processor saves of a state when it goes through a gate. -/
def returnFrame (gate : Gate) (s : State) : List Slot :=
  [.word s.eip, .selector (s.seg .cs), .word s.eflags] ++
    if level gate.cs < level (s.seg .cs) then [.word (s.reg .esp), .selector (s.seg .ss)] else []

theorem Agrees.nil (s : State) : Agrees s ⟨s.reg, s.seg, []⟩ := ⟨rfl, rfl, .nil _ _⟩

theorem interrupt_frame (cpu : Cpu) (gate : Gate) (s : State) :
    HoldsSlots (s.interrupt cpu gate).mem ((s.interrupt cpu gate).reg .esp)
      (returnFrame gate s) := by
  have hpush : ∀ {t v}, Agrees t v → v.stack.length ≤ 2 →
      HoldsSlots (((t.push s.eflags).pushSelector cpu (s.seg .cs)).push s.eip).mem
        ((((t.push s.eflags).pushSelector cpu (s.seg .cs)).push s.eip).reg .esp)
        ([.word s.eip, .selector (s.seg .cs), .word s.eflags] ++ v.stack) := by
    intro t v h hl
    have h₁ := h.push (x := .word s.eflags) (w := s.eflags) (by omega) rfl
    have h₂ := h₁.pushSelector (by simp only [View.push, List.length_cons]; omega) cpu (s.seg .cs)
    have h₃ := h₂.push (x := .word s.eip) (w := s.eip)
      (by simp only [View.push, List.length_cons]; omega) rfl
    rw [h₃.reg]
    exact h₃.stack
  rw [returnFrame, State.interrupt]
  by_cases hlevel : level gate.cs < level (s.seg .cs)
  · rw [if_pos hlevel, if_pos hlevel]
    have h₀ := Agrees.nil ((s.setSeg .ss gate.ss0).setReg .esp gate.esp0)
    have h₁ := h₀.pushSelector (by simp only [List.length_nil]; omega) cpu (s.seg .ss)
    have h₂ := h₁.push (x := .word (s.reg .esp)) (w := s.reg .esp)
      (by simp only [View.push, List.length_cons, List.length_nil]; omega) rfl
    exact hpush h₂ (Nat.le_refl 2)
  · rw [if_neg hlevel, if_neg hlevel]
    exact hpush (Agrees.nil s) (Nat.zero_le 2)

theorem interrupt_reg (cpu : Cpu) (gate : Gate) (s : State) (hr : r ≠ .esp) :
    (s.interrupt cpu gate).reg r = s.reg r := by
  simp only [State.interrupt]
  split <;>
    simp only [State.push, State.pushSelector, State.setReg, State.setSeg,
      Function.update_of_ne hr]

theorem interrupt_seg (cpu : Cpu) (gate : Gate) (s : State) (hcs : r ≠ .cs) (hss : r ≠ .ss) :
    (s.interrupt cpu gate).seg r = s.seg r := by
  simp only [State.interrupt]
  split <;>
    simp only [State.push, State.pushSelector, State.setReg, State.setSeg,
      Function.update_of_ne hcs, Function.update_of_ne hss]

theorem interrupt_cs (cpu : Cpu) (gate : Gate) (s : State) :
    (s.interrupt cpu gate).seg .cs = gate.cs := by
  simp only [State.interrupt, State.setSeg, Function.update_self]

/-- A return through the frame of an interrupt resumes what was interrupted. -/
theorem iret_interrupt {t : State} (h : HoldsSlots t.mem (t.reg .esp) (returnFrame gate s))
    (hesp : t.reg .esp = (s.interrupt cpu gate).reg .esp) (hcs : t.seg .cs = gate.cs)
    (hss : t.seg .ss = (s.interrupt cpu gate).seg .ss) :
    t.iret.eip = s.eip ∧ t.iret.eflags = s.eflags ∧ t.iret.reg .esp = s.reg .esp ∧
      t.iret.seg .cs = s.seg .cs ∧ t.iret.seg .ss = s.seg .ss := by
  rw [returnFrame] at h
  have heip : load t.mem (t.reg .esp) = s.eip := h.head
  have hcs' : (load t.mem (t.reg .esp + 4)).toUInt16 = s.seg .cs := h.fits 1 _ rfl
  have hflags : load t.mem (t.reg .esp + 8) = s.eflags := h.fits 2 _ rfl
  have hne : SegReg.ss ≠ SegReg.cs := SegReg.noConfusion
  simp only [State.iret, hcs, hcs']
  by_cases hlevel : level gate.cs < level (s.seg .cs)
  · rw [if_pos hlevel] at h
    have hold : load t.mem (t.reg .esp + 12) = s.reg .esp := h.fits 3 _ rfl
    have hss' : (load t.mem (t.reg .esp + 16)).toUInt16 = s.seg .ss := h.fits 4 _ rfl
    rw [if_pos hlevel]
    simp only [State.setReg, State.setSeg, Function.update_self, Function.update_of_ne hne.symm]
    exact ⟨heip, hflags, hold, trivial, hss'⟩
  · rw [if_neg hlevel]
    have hback : t.reg .esp + 12 = s.reg .esp := by
      rw [hesp, State.interrupt, if_neg hlevel]
      simp only [State.push, State.pushSelector, State.setSeg, Function.update_self]
      grind
    have hss' : (s.interrupt cpu gate).seg .ss = s.seg .ss := by
      rw [State.interrupt, if_neg hlevel]
      simp only [State.push, State.pushSelector, State.setSeg, Function.update_of_ne hne]
    simp only [State.setReg, State.setSeg, Function.update_self, Function.update_of_ne hne]
    exact ⟨heip, hflags, hback, trivial, hss.trans hss'⟩

end X86
