import KernelCustom.X86

namespace X86
set_option autoImplicit true

/-- A descriptor of eight bytes, as the two words that it consists of. -/
structure Descriptor where
  low : UInt32
  high : UInt32
  deriving DecidableEq

def Descriptor.access (d : Descriptor) : Nat := d.high.toNat / 256 % 256

/-- The four bits for the type. -/
def Descriptor.kind (d : Descriptor) : Nat := d.access % 16

/-- A segment of code or data; the other descriptors belong to the system. -/
def Descriptor.isSegment (d : Descriptor) : Bool := d.access.testBit 4

def Descriptor.dpl (d : Descriptor) : Nat := d.access / 32 % 4

def Descriptor.present (d : Descriptor) : Bool := d.access.testBit 7

def Descriptor.isCode (d : Descriptor) : Bool := d.isSegment && d.access.testBit 3

def Descriptor.isConforming (d : Descriptor) : Bool := d.isCode && d.access.testBit 2

def Descriptor.isReadable (d : Descriptor) : Bool :=
  d.isSegment && (!d.isCode || d.access.testBit 1)

def Descriptor.isWritable (d : Descriptor) : Bool :=
  d.isSegment && !d.isCode && d.access.testBit 1

/-- Where a segment begins. -/
def Descriptor.base (d : Descriptor) : Nat :=
  d.low.toNat / 65536 + 65536 * (d.high.toNat % 256) + 16777216 * (d.high.toNat / 16777216)

/-- The offset of the last byte of a segment; the granularity bit makes it one of pages. -/
def Descriptor.limit (d : Descriptor) : Nat :=
  let limit := d.low.toNat % 65536 + 65536 * (d.high.toNat / 65536 % 16)
  if d.high.toNat.testBit 23 then 4096 * limit + 4095 else limit

/-- A segment through which an offset is an address, whatever its value. -/
def Descriptor.isFlat (d : Descriptor) : Prop := d.base = 0 ∧ d.limit = 4294967295

/-- An interrupt gate or a trap gate for 32 bits. Task gates are not modelled. -/
def Descriptor.isGate (d : Descriptor) : Bool :=
  !d.isSegment && (d.kind == 14 || d.kind == 15)

def Descriptor.selector (d : Descriptor) : UInt16 := .ofNat (d.low.toNat / 65536)

def Descriptor.offset (d : Descriptor) : UInt32 :=
  .ofNat (d.low.toNat % 65536 + 65536 * (d.high.toNat / 65536))

/-- A register that says where a table lies. -/
structure TableReg where
  base : UInt32
  limit : UInt16
  deriving DecidableEq

/-- The task register, with what `ltr` took from the descriptor. -/
structure TaskReg where
  selector : UInt16
  base : UInt32
  limit : Nat
  deriving DecidableEq

/-- The registers for the tables. There is no local descriptor table. -/
structure Tables where
  gdtr : TableReg
  idtr : TableReg
  task : TaskReg

def TableReg.entry (r : TableReg) (m : Memory) (i : Nat) : Option Descriptor :=
  if 8 * i + 7 ≤ r.limit.toNat then
    some ⟨load m (r.base + 8 * .ofNat i), load m (r.base + 8 * .ofNat i + 4)⟩
  else none

/-- The descriptor of a selector, unless it is null. -/
def Tables.descriptor (T : Tables) (m : Memory) (sel : UInt16) : Option Descriptor :=
  if sel.toNat / 4 = 0 ∨ sel.toNat / 4 % 2 = 1 then none else T.gdtr.entry m (sel.toNat / 8)

/-- The privilege level of the code that runs. -/
def State.cpl (s : State) : Nat := (s.seg .cs).toNat % 4

theorem toNat_level (sel : UInt16) : (level sel).toNat = sel.toNat % 4 := by
  rw [level, UInt16.toNat_and]
  exact Nat.and_two_pow_sub_one_eq_mod sel.toNat 2

/-- The level up to which code may use the ports and the interrupt flag. -/
def State.iopl (s : State) : Nat := s.eflags.toNat / 4096 % 4

def State.interruptsOn (s : State) : Bool := s.eflags.toNat.testBit 9

/-- A selector with another level. -/
def withLevel (sel : UInt16) (level : Nat) : UInt16 := .ofNat (sel.toNat / 4 * 4 + level)

/-- What makes the processor look into the interrupt table. -/
inductive Event where
  | software (vector : Nat)
  | external (vector : Nat)
  | exception (vector : Nat) (code : Option Nat)
  deriving DecidableEq

def Event.vector : Event → Nat
  | software n => n
  | external n => n
  | exception n _ => n

def Event.isSoftware : Event → Bool
  | software _ => true
  | _ => false

/-- The bit of an error code that tells an event from an instruction. -/
def Event.ext (e : Event) : Nat := if e.isSoftware then 0 else 1

def Event.code : Event → Option Nat
  | exception _ code => code
  | _ => none

def invalidTss (code : Nat) : Event := .exception 10 (some code)

def notPresent (code : Nat) : Event := .exception 11 (some code)

def stackFault (code : Nat) : Event := .exception 12 (some code)

def protection (code : Nat) : Event := .exception 13 (some code)

/-- How an error code names a selector. -/
def selectorCode (sel : UInt16) (ext : Nat) : Nat := sel.toNat / 4 * 4 + ext

/-- The stack that the task has for an inner level. -/
def Tables.innerStack (T : Tables) (m : Memory) (level ext : Nat) :
    Except Event (UInt16 × UInt32) :=
  if T.task.limit < 8 * level + 9 then .error (invalidTss (selectorCode T.task.selector ext))
  else
    let esp := load m (T.task.base + .ofNat (8 * level + 4))
    let ss := (load m (T.task.base + .ofNat (8 * level + 8))).toUInt16
    match T.descriptor m ss with
    | none => .error (invalidTss (selectorCode ss ext))
    | some d =>
      if ss.toNat % 4 ≠ level ∨ d.dpl ≠ level ∨ d.isWritable = false then
        .error (invalidTss (selectorCode ss ext))
      else if d.present = false then .error (stackFault (selectorCode ss ext))
      else .ok (ss, esp)

/-- The handler for an event, and the stack for it. -/
def Tables.handler (T : Tables) (e : Event) (s : State) : Except Event (Descriptor × Gate) :=
  let code := 8 * e.vector + 2 + e.ext
  match T.idtr.entry s.mem e.vector with
  | none => .error (protection code)
  | some g =>
    if g.isGate = false ∨ e.isSoftware = true ∧ g.dpl < s.cpl then .error (protection code)
    else if g.present = false then .error (notPresent code)
    else
      match T.descriptor s.mem g.selector with
      | none => .error (protection (selectorCode g.selector e.ext))
      | some c =>
        if c.isCode = false ∨ s.cpl < c.dpl then
          .error (protection (selectorCode g.selector e.ext))
        else if c.present = false then .error (notPresent (selectorCode g.selector e.ext))
        else if c.isConforming = false ∧ c.dpl < s.cpl then
          (T.innerStack s.mem c.dpl e.ext).map fun (ss, esp) =>
            (g, ⟨withLevel g.selector c.dpl, g.offset, ss, esp⟩)
        else .ok (g, ⟨withLevel g.selector s.cpl, g.offset, s.seg .ss, s.reg .esp⟩)

/-- A trap gate leaves the interrupt flag as it is. -/
def State.through (cpu : Cpu) (s : State) (e : Event) (g : Descriptor) (gate : Gate) : State :=
  let t := s.interrupt cpu gate
  let t := if g.kind = 15 then { t with eflags := s.eflags } else t
  match e.code with
  | none => t
  | some code => t.push (.ofNat code)

def Tables.enter (cpu : Cpu) (T : Tables) (e : Event) (s : State) : Except Event State :=
  (T.handler e s).map fun (g, gate) => s.through cpu e g gate

def contributory (vector : Nat) : Bool := vector ∈ [0, 10, 11, 12, 13]

/-- Two events that together are a double fault. -/
def Event.doubles (e : Event) (f : Event) : Bool :=
  match e with
  | exception 14 _ => contributory f.vector || f.vector == 14
  | exception n _ => contributory n && contributory f.vector
  | _ => false

/-- What comes of an event whose handler is not reached; a double fault has no successor. -/
def Event.after (e : Event) (f : Event) : Option Event :=
  match e with
  | exception 8 _ => none
  | e => some (if e.doubles f then .exception 8 (some 0) else f)

/-- What the processor does with an event, with a bound for its attempts; it may shut down. -/
def Tables.take (cpu : Cpu) (T : Tables) (s : State) : Nat → Event → Option State
  | 0, _ => none
  | attempts + 1, e =>
    match T.enter cpu e s with
    | .ok t => some t
    | .error f => (e.after f).bind (T.take cpu s attempts)

/-- Whether a selector can be loaded into a register other than that of code. -/
def Tables.mayLoad (T : Tables) (m : Memory) (cpl : Nat) (r : SegReg) (sel : UInt16) :
    Except Event Unit :=
  match r with
  | .cs => .error (.exception 6 none)
  | .ss =>
    match T.descriptor m sel with
    | none => .error (protection (selectorCode sel 0))
    | some d =>
      if sel.toNat % 4 ≠ cpl ∨ d.isWritable = false ∨ d.dpl ≠ cpl then
        .error (protection (selectorCode sel 0))
      else if d.present = false then .error (stackFault (selectorCode sel 0))
      else .ok ()
  | _ =>
    if sel.toNat / 4 = 0 then .ok ()
    else
      match T.descriptor m sel with
      | none => .error (protection (selectorCode sel 0))
      | some d =>
        if d.isReadable = false ∨
            d.isConforming = false ∧ (d.dpl < sel.toNat % 4 ∨ d.dpl < cpl) then
          .error (protection (selectorCode sel 0))
        else if d.present = false then .error (notPresent (selectorCode sel 0))
        else .ok ()

/-- What comes of an action of a program. -/
inductive Outcome where
  | goesOn (s : State)
  | raises (e : Event)
  /-- Through a gate or into a task, which is not followed. -/
  | leaves (d : Descriptor)

def Outcome.ofExcept : Except Event State → Outcome
  | .ok s => goesOn s
  | .error e => raises e

/-- A far jump or call. -/
def Tables.farJump (T : Tables) (s : State) (sel : UInt16) (eip : UInt32) : Outcome :=
  match T.descriptor s.mem sel with
  | none => .raises (protection (selectorCode sel 0))
  | some d =>
    if d.isSegment then
      if d.isCode = false ∨ d.isConforming = true ∧ s.cpl < d.dpl ∨
          d.isConforming = false ∧ (s.cpl < sel.toNat % 4 ∨ d.dpl ≠ s.cpl) then
        .raises (protection (selectorCode sel 0))
      else if d.present = false then .raises (notPresent (selectorCode sel 0))
      else .goesOn { s.setSeg .cs (withLevel sel s.cpl) with eip }
    -- the system descriptors that are no gates and no tasks are refused, too
    else if d.dpl < s.cpl ∨ d.dpl < sel.toNat % 4 then .raises (protection (selectorCode sel 0))
    else .leaves d

/-- The checks of a far return, also of that of an interrupt; it never leads to an inner level. -/
def Tables.mayReturn (T : Tables) (m : Memory) (cpl : Nat) (cs ss : UInt16) : Except Event Unit :=
  match T.descriptor m cs with
  | none => .error (protection (selectorCode cs 0))
  | some d =>
    let level := cs.toNat % 4
    if d.isCode = false ∨ level < cpl ∨ d.isConforming = true ∧ level < d.dpl ∨
        d.isConforming = false ∧ d.dpl ≠ level then
      .error (protection (selectorCode cs 0))
    else if d.present = false then .error (notPresent (selectorCode cs 0))
    else if cpl < level then T.mayLoad m level .ss ss
    else .ok ()

/-- What `popf` and `iret` can set of the flags: the level of the ports only at level 0, the
interrupt flag up to that level, and virtual mode never. -/
def keptFlags (cpl iopl : Nat) : UInt32 :=
  0x20000 ||| (if cpl = 0 then 0 else 0x3000) ||| if cpl ≤ iopl then 0 else 0x200

def State.withFlags (s : State) (flags : UInt32) : UInt32 :=
  let kept := keptFlags s.cpl s.iopl
  (flags &&& ~~~kept) ||| (s.eflags &&& kept)

/-- The words that a far return takes from the stack. -/
structure ReturnFrame where
  eip : UInt32
  cs : UInt16
  eflags : UInt32
  esp : UInt32
  ss : UInt16

/-- A data segment of an inner level. -/
def Tables.isInner (T : Tables) (m : Memory) (level : Nat) (sel : UInt16) : Bool :=
  (T.descriptor m sel).any fun d => !d.isConforming && decide (d.dpl < level)

/-- Where a far return goes on. At the same level the stack stays; at an outer one the data
segments of inner levels are gone. -/
def Tables.returned (T : Tables) (s : State) (F : ReturnFrame) (esp flags : UInt32) : State :=
  let t := { s.setSeg .cs F.cs with eip := F.eip, eflags := flags }
  let level := F.cs.toNat % 4
  if s.cpl < level then
    let seg := fun r =>
      if r = .cs then F.cs
      else if r = .ss then F.ss
      else if T.isInner s.mem level (s.seg r) then 0
      else s.seg r
    { t.setReg .esp F.esp with seg }
  else t.setReg .esp esp

/-- The end of a task that another one has called; its descriptor is that of a busy task. -/
def Tables.nestedReturn (T : Tables) (m : Memory) : Outcome :=
  let link := (load m T.task.base).toUInt16
  match T.descriptor m link with
  | none => .raises (invalidTss (selectorCode link 0))
  | some d =>
    if d.isSegment = true ∨ d.kind ≠ 3 ∧ d.kind ≠ 11 then
      .raises (invalidTss (selectorCode link 0))
    else .leaves d

/-- The ports that the bitmap of the task allows. The processor reads two of its bytes. -/
def Tables.bitmapAllows (T : Tables) (m : Memory) (port : UInt16) (width : Nat) : Bool :=
  let bitmap := (load m (T.task.base + 100)).toNat / 65536
  decide (bitmap + port.toNat / 8 + 1 ≤ T.task.limit) &&
    (List.range width).all fun i =>
      !(m (T.task.base + .ofNat (bitmap + (port.toNat + i) / 8))).toNat.testBit
        ((port.toNat + i) % 8)

/-- What a program attempts, and what happens to it. -/
inductive Action where
  /-- What changes registers only. The flags are those that `popf` was given. -/
  | compute (reg : Reg → UInt32) (eip flags : UInt32)
  | store (a : UInt32) (b : UInt8)
  | loadSegment (r : SegReg) (sel : UInt16)
  | farJump (sel : UInt16) (eip : UInt32)
  | farReturn (F : ReturnFrame) (esp : UInt32)
  | iret (F : ReturnFrame) (esp : UInt32)
  | port (port : UInt16) (width : Nat)
  | setInterrupts (on : Bool)
  /-- `hlt`, `lgdt`, `lidt`, `lldt`, `ltr`, `clts` and what touches control registers. -/
  | privileged
  | event (e : Event)

/-- The actions below level 0. The pages say for a byte whether a store faults, and with which
error code. -/
def Tables.act (T : Tables) (storeFault : Memory → UInt32 → Option Nat) (s : State) :
    Action → Outcome
  | .compute reg eip flags => .goesOn { s with reg, eip, eflags := s.withFlags flags }
  | .store a b =>
    match storeFault s.mem a with
    | none => .goesOn { s with mem := Function.update s.mem a b }
    | some code => .raises (.exception 14 (some code))
  | .loadSegment r sel => .ofExcept ((T.mayLoad s.mem s.cpl r sel).map fun _ => s.setSeg r sel)
  | .farJump sel eip => T.farJump s sel eip
  | .farReturn F esp =>
    .ofExcept ((T.mayReturn s.mem s.cpl F.cs F.ss).map fun _ => T.returned s F esp s.eflags)
  | .iret F esp =>
    if s.eflags.toNat.testBit 14 then T.nestedReturn s.mem
    else
      .ofExcept ((T.mayReturn s.mem s.cpl F.cs F.ss).map fun _ =>
        T.returned s F esp (s.withFlags F.eflags))
  | .port p width =>
    if s.cpl ≤ s.iopl ∨ T.bitmapAllows s.mem p width = true then .goesOn s
    else .raises (protection 0)
  | .setInterrupts on =>
    if s.cpl ≤ s.iopl then
      .goesOn { s with eflags := if on then s.eflags ||| 0x200 else s.eflags &&& ~~~0x200 }
    else .raises (protection 0)
  | .privileged => .raises (protection 0)
  | .event e => .raises e

/-! What a table register covers. -/

def TableReg.Covers (r : TableReg) (a : UInt32) : Prop := (a - r.base).toNat ≤ r.limit.toNat

theorem load_update (m : Memory) (b : UInt8) (h : 4 ≤ (x - a).toNat) :
    load (Function.update m x b) a = load m a := by
  have hne : ∀ j : UInt32, j.toNat < 4 → a + j ≠ x := by
    rintro j hj rfl
    have hsub : a + j - a = j := by grind
    rw [hsub] at h
    omega
  have h₀ := hne 0 (by decide)
  rw [UInt32.add_zero] at h₀
  simp only [load, Function.update_of_ne h₀, Function.update_of_ne (hne 1 (by decide)),
    Function.update_of_ne (hne 2 (by decide)), Function.update_of_ne (hne 3 (by decide))]

/-- A store outside a table leaves its entries alone. -/
theorem TableReg.entry_update (r : TableReg) (m : Memory) (b : UInt8) (i : Nat)
    (h : ¬ r.Covers x) : r.entry (Function.update m x b) i = r.entry m i := by
  rw [TableReg.Covers, Nat.not_le] at h
  rw [TableReg.entry, TableReg.entry]
  split
  · next hi =>
    have hlim := r.limit.toNat_lt
    have hfar : ∀ j, j ≤ 4 → 4 ≤ (x - (r.base + 8 * .ofNat i + .ofNat j)).toNat := by
      intro j hj
      have hsub : x - (r.base + 8 * .ofNat i + .ofNat j) = x - r.base - .ofNat (8 * i + j) := by
        rw [UInt32.ofNat_add, UInt32.ofNat_mul]
        grind
      rw [hsub, UInt32.toNat_sub_of_le, UInt32.toNat_ofNat']
      · omega
      · rw [UInt32.le_iff_toNat_le, UInt32.toNat_ofNat']
        omega
    have h₀ := hfar 0 (by decide)
    rw [show UInt32.ofNat 0 = 0 from rfl, UInt32.add_zero] at h₀
    have h₄ : 4 ≤ (x - (r.base + 8 * .ofNat i + 4)).toNat := hfar 4 (by decide)
    rw [load_update m b h₀, load_update m b h₄]
  · rfl

theorem Tables.descriptor_congr (T : Tables) (h : ∀ i, T.gdtr.entry m' i = T.gdtr.entry m i) :
    T.descriptor m' = T.descriptor m := by
  funext sel
  rw [Tables.descriptor, Tables.descriptor, h]

theorem Tables.mayLoad_congr (T : Tables) (h : T.descriptor m' = T.descriptor m) :
    T.mayLoad m' = T.mayLoad m := by
  funext cpl r sel
  cases r <;> simp only [Tables.mayLoad, h]

/-! Tables as rows of words. -/

def HoldsWords (m : Memory) (base : UInt32) (n : Nat) (words : Nat → UInt32) : Prop :=
  ∀ i, i < n → load m (base + 4 * .ofNat i) = words i

def descriptorWords (d : Nat → Descriptor) (i : Nat) : UInt32 :=
  if i % 2 = 0 then (d (i / 2)).low else (d (i / 2)).high

theorem HoldsWords.entry {r : TableReg} (h : HoldsWords m r.base (2 * n) (descriptorWords d))
    (hlim : r.limit.toNat + 1 = 8 * n) (i : Nat) :
    r.entry m i = if i < n then some (d i) else none := by
  rw [TableReg.entry]
  by_cases hi : i < n
  · have hlow := h (2 * i) (by omega)
    have hhigh := h (2 * i + 1) (by omega)
    have haddr : r.base + 4 * UInt32.ofNat (2 * i) = r.base + 8 * .ofNat i := by
      rw [UInt32.ofNat_mul]
      grind
    have haddr' : r.base + 4 * UInt32.ofNat (2 * i + 1) = r.base + 8 * .ofNat i + 4 := by
      rw [UInt32.ofNat_add, UInt32.ofNat_mul]
      grind
    have hmod : 2 * i % 2 = 0 ∧ 2 * i / 2 = i := by omega
    have hmod' : (2 * i + 1) % 2 ≠ 0 ∧ (2 * i + 1) / 2 = i := by omega
    rw [haddr, descriptorWords, if_pos hmod.1, hmod.2] at hlow
    rw [haddr', descriptorWords, if_neg hmod'.1, hmod'.2] at hhigh
    rw [if_pos (by omega), if_pos hi, hlow, hhigh]
  · rw [if_neg (by omega), if_neg hi]

/-- A memory with a row of words in it. -/
def wordsMemory (base : UInt32) (n : Nat) (words : Nat → UInt32) (m : Memory) : Memory := fun a =>
  if (a - base).toNat < 4 * n then byteOf (words ((a - base).toNat / 4)) ((a - base).toNat % 4)
  else m a

theorem load_eq_of_bytes {m : Memory} {w : UInt32}
    (h : ∀ j, j < 4 → m (a + .ofNat j) = byteOf w j) : load m a = w := by
  have h₀ := h 0 (by decide)
  rw [show UInt32.ofNat 0 = 0 from rfl, UInt32.add_zero] at h₀
  have h₁ : m (a + 1) = byteOf w 1 := h 1 (by decide)
  have h₂ : m (a + 2) = byteOf w 2 := h 2 (by decide)
  have h₃ : m (a + 3) = byteOf w 3 := h 3 (by decide)
  apply UInt32.toNat_inj.1
  have hw := w.toNat_lt
  simp only [load, h₀, h₁, h₂, h₃, byteOf, UInt8.toNat_ofNat', UInt32.toNat_ofNat']
  omega

theorem holdsWords_wordsMemory (base : UInt32) (words : Nat → UInt32) (m : Memory)
    (hn : n < 1073741824) : HoldsWords (wordsMemory base n words m) base n words := by
  intro i hi
  apply load_eq_of_bytes
  intro j hj
  have hoff : (base + 4 * UInt32.ofNat i + .ofNat j - base).toNat = 4 * i + j := by
    rw [show base + 4 * UInt32.ofNat i + .ofNat j - base = 4 * UInt32.ofNat i + .ofNat j by grind,
      UInt32.toNat_add, UInt32.toNat_mul, UInt32.toNat_ofNat', UInt32.toNat_ofNat']
    simp only [UInt32.reduceToNat]
    omega
  have hi' : (4 * i + j) / 4 = i ∧ (4 * i + j) % 4 = j := by omega
  rw [wordsMemory, hoff, if_pos (by omega), hi'.1, hi'.2]

theorem load_congr (h : ∀ x, (x - a).toNat < 4 → m' x = m x) : load m' a = load m a := by
  have hbyte : ∀ j : UInt32, j.toNat < 4 → m' (a + j) = m (a + j) := by
    intro j hj
    refine h _ ?_
    rwa [show a + j - a = j by grind]
  have h₀ := hbyte 0 (by decide)
  rw [UInt32.add_zero] at h₀
  rw [load, load, h₀, hbyte 1 (by decide), hbyte 2 (by decide), hbyte 3 (by decide)]

/-- A row of words stays when its bytes do. -/
theorem HoldsWords.congr (h : HoldsWords m base n words) (hn : n < 1073741824)
    (hm : ∀ a, (a - base).toNat < 4 * n → m' a = m a) : HoldsWords m' base n words := by
  intro i hi
  rw [← h i hi]
  refine load_congr fun x hx => hm x ?_
  have hsub : x - base = x - (base + 4 * UInt32.ofNat i) + 4 * UInt32.ofNat i := by grind
  rw [hsub, UInt32.toNat_add, UInt32.toNat_mul, UInt32.toNat_ofNat']
  simp only [UInt32.reduceToNat]
  omega

theorem store_apply_congr (a w : UInt32) (h : m x = m' x) : store m a w x = store m' a w x := by
  simp only [store, h]

/-- The second of two stores to the same word counts. -/
theorem store_store (m : Memory) (a v w : UInt32) : store (store m a v) a w = store m a w := by
  funext x
  simp only [store]
  split
  · rfl
  · split
    · rfl
    · split
      · rfl
      · split <;> rfl

/-! Programs at level 3. -/

/-- A program at level 3 that has no right to the ports and cannot turn interrupts off. -/
structure Tables.Confines (T : Tables) (s : State) : Prop where
  cpl : s.cpl = 3
  iopl : s.iopl = 0
  interruptsOn : s.interruptsOn = true
  code : ∃ d, T.descriptor s.mem (s.seg .cs) = some d ∧ d.isCode = true ∧ d.present = true ∧
    (d.isConforming = false → d.dpl = 3)
  segments : ∀ r, r ≠ .cs → T.mayLoad s.mem 3 r (s.seg r) = .ok ()

/-- Tables with no way to an inner level but the interrupts: no gate or task that level 3 may
call, no task to return to and no bitmap for the ports. -/
structure Tables.Sealed (T : Tables) (m : Memory) : Prop where
  system : ∀ sel d, T.descriptor m sel = some d → d.isSegment = false → d.dpl < 3
  link : T.descriptor m (load m T.task.base).toUInt16 = none
  bitmap : T.task.limit ≤ (load m (T.task.base + 100)).toNat / 65536

section Program

variable {T : Tables} {s s' : State} {storeFault : Memory → UInt32 → Option Nat}

theorem testBit_withFlags (s : State) (flags : UInt32) (i : Nat)
    (hk : (keptFlags s.cpl s.iopl).toNat.testBit i = true) :
    (s.withFlags flags).toNat.testBit i = s.eflags.toNat.testBit i := by
  rw [← UInt32.toNat_toBitVec, BitVec.testBit_toNat] at hk ⊢
  rw [← UInt32.toNat_toBitVec, BitVec.testBit_toNat]
  simp [State.withFlags, hk]

theorem iopl_of_bits {e f : UInt32} (h₁ : f.toNat.testBit 12 = e.toNat.testBit 12)
    (h₂ : f.toNat.testBit 13 = e.toNat.testBit 13) : f.toNat / 4096 % 4 = e.toNat / 4096 % 4 := by
  rw [Nat.testBit_eq_decide_div_mod_eq, Nat.testBit_eq_decide_div_mod_eq,
    decide_eq_decide] at h₁ h₂
  omega

theorem Tables.Confines.withFlags (h : T.Confines s) (flags : UInt32) :
    (s.withFlags flags).toNat / 4096 % 4 = 0 ∧ (s.withFlags flags).toNat.testBit 9 = true := by
  have hbit : ∀ i ∈ [9, 12, 13],
      (s.withFlags flags).toNat.testBit i = s.eflags.toNat.testBit i := by
    intro i hi
    refine testBit_withFlags s flags i ?_
    rw [h.cpl, h.iopl]
    revert i
    decide
  refine ⟨?_, (hbit 9 (by decide)).trans h.interruptsOn⟩
  exact (iopl_of_bits (hbit 12 (by decide)) (hbit 13 (by decide))).trans h.iopl

theorem ofExcept_map_goesOn {x : Except Event α} {f : α → State}
    (h : Outcome.ofExcept (x.map f) = .goesOn s') : ∃ v, x = .ok v ∧ f v = s' := by
  cases x with
  | error e => cases h
  | ok v =>
    cases h
    exact ⟨v, rfl, rfl⟩

theorem toNat_withLevel (sel : UInt16) (hn : n < 4) :
    (withLevel sel n).toNat = sel.toNat / 4 * 4 + n := by
  have hsel := sel.toNat_lt
  rw [withLevel, UInt16.toNat_ofNat']
  omega

theorem Tables.descriptor_withLevel (T : Tables) (m : Memory) (sel : UInt16) (hn : n < 4) :
    T.descriptor m (withLevel sel n) = T.descriptor m sel := by
  have hval := toNat_withLevel sel hn
  have h₄ : (withLevel sel n).toNat / 4 = sel.toNat / 4 := by omega
  have h₈ : (withLevel sel n).toNat / 8 = sel.toNat / 8 := by omega
  rw [Tables.descriptor, Tables.descriptor, h₄, h₈]

/-- A far jump stays at its level. -/
theorem Tables.Confines.farJump (h : T.Confines s) (ha : T.farJump s sel eip = .goesOn s') :
    T.Confines s' := by
  simp only [Tables.farJump] at ha
  split at ha
  · cases ha
  · next d hd =>
    split at ha
    · split at ha
      · cases ha
      · next hok =>
        split at ha
        · cases ha
        · next hpresent =>
          cases ha
          rw [h.cpl] at hok ⊢
          have hcpl : (withLevel sel 3).toNat % 4 = 3 := by
            rw [toNat_withLevel sel (by decide)]
            omega
          refine ⟨?_, h.iopl, h.interruptsOn, ?_, fun r hr => ?_⟩
          · simp only [State.cpl, State.setSeg, Function.update_self]
            exact hcpl
          · refine ⟨d, ?_, by grind, by grind, by grind⟩
            simp only [State.setSeg, Function.update_self]
            rw [T.descriptor_withLevel s.mem sel (by decide), hd]
          · simp only [State.setSeg, Function.update_of_ne hr]
            exact h.segments r hr
    · split at ha <;> cases ha

/-- A far return stays at level 3, which is the outermost. -/
theorem Tables.Confines.returned (h : T.Confines s)
    (hret : T.mayReturn s.mem s.cpl F.cs F.ss = .ok ()) (hiopl : flags.toNat / 4096 % 4 = 0)
    (hif : flags.toNat.testBit 9 = true) : T.Confines (T.returned s F esp flags) := by
  simp only [Tables.mayReturn] at hret
  split at hret
  · cases hret
  · next d hd =>
    split at hret
    · cases hret
    · next hok =>
      split at hret
      · cases hret
      · next hpresent =>
        rw [h.cpl] at hok
        have hlevel : F.cs.toNat % 4 = 3 := by omega
        have hstay : ¬ s.cpl < F.cs.toNat % 4 := by
          rw [h.cpl, hlevel]
          decide
        rw [Tables.returned, if_neg hstay]
        refine ⟨?_, hiopl, hif, ?_, fun r hr => ?_⟩
        · simp only [State.cpl, State.setReg, State.setSeg, Function.update_self]
          exact hlevel
        · refine ⟨d, ?_, by grind, by grind, by grind⟩
          simp only [State.setReg, State.setSeg, Function.update_self]
          exact hd
        · simp only [State.setReg, State.setSeg, Function.update_of_ne hr]
          exact h.segments r hr

theorem Tables.nestedReturn_ne_goesOn (T : Tables) (m : Memory) :
    T.nestedReturn m ≠ .goesOn s' := by
  simp only [Tables.nestedReturn]
  split
  · exact Outcome.noConfusion
  · split <;> exact Outcome.noConfusion

theorem Tables.returned_mem (T : Tables) (s : State) (F : ReturnFrame) (esp flags : UInt32) :
    (T.returned s F esp flags).mem = s.mem := by
  rw [Tables.returned]
  split <;> rfl

/-- An action that goes on leaves the rights of a program as they are, when no store reaches the
descriptors. -/
theorem Tables.Confines.act (h : T.Confines s)
    (hstore : ∀ a, storeFault s.mem a = none → ¬ T.gdtr.Covers a) {a : Action}
    (ha : T.act storeFault s a = .goesOn s') : T.Confines s' := by
  cases a with
  | compute reg eip flags =>
    cases ha
    obtain ⟨hiopl, hif⟩ := h.withFlags flags
    exact ⟨h.cpl, hiopl, hif, h.code, h.segments⟩
  | store a b =>
    simp only [Tables.act] at ha
    split at ha
    · next hnone =>
      cases ha
      have hdesc : T.descriptor (Function.update s.mem a b) = T.descriptor s.mem :=
        T.descriptor_congr fun i => T.gdtr.entry_update s.mem b i (hstore a hnone)
      refine ⟨h.cpl, h.iopl, h.interruptsOn, ?_, ?_⟩
      · rw [hdesc]
        exact h.code
      · rw [T.mayLoad_congr hdesc]
        exact h.segments
    · cases ha
  | loadSegment r sel =>
    obtain ⟨⟨⟩, hload, rfl⟩ := ofExcept_map_goesOn ha
    rw [h.cpl] at hload
    have hne : r ≠ .cs := by
      rintro rfl
      cases hload
    have hcs : Function.update s.seg r sel .cs = s.seg .cs := Function.update_of_ne hne.symm _ _
    refine ⟨?_, h.iopl, h.interruptsOn, ?_, ?_⟩
    · exact (congrArg (fun c : UInt16 => c.toNat % 4) hcs).trans h.cpl
    · simp only [State.setSeg, hcs]
      exact h.code
    · intro r' hr'
      by_cases heq : r' = r
      · subst heq
        simp only [State.setSeg, Function.update_self]
        exact hload
      · simp only [State.setSeg, Function.update_of_ne heq]
        exact h.segments r' hr'
  | farJump sel eip => exact h.farJump ha
  | farReturn F esp =>
    obtain ⟨⟨⟩, hret, rfl⟩ := ofExcept_map_goesOn ha
    exact h.returned hret h.iopl h.interruptsOn
  | iret F esp =>
    simp only [Tables.act] at ha
    split at ha
    · exact absurd ha (T.nestedReturn_ne_goesOn s.mem)
    · obtain ⟨⟨⟩, hret, rfl⟩ := ofExcept_map_goesOn ha
      obtain ⟨hiopl, hif⟩ := h.withFlags F.eflags
      exact h.returned hret hiopl hif
  | port p width =>
    simp only [Tables.act] at ha
    split at ha
    · cases ha
      exact h
    · cases ha
  | setInterrupts on =>
    simp only [Tables.act] at ha
    rw [if_neg (by rw [h.cpl, h.iopl]; decide)] at ha
    cases ha
  | privileged => cases ha
  | event e => cases ha

/-- No action follows a gate or goes to another task. -/
theorem Tables.Sealed.act_ne_leaves (hT : T.Sealed s.mem) (h : T.Confines s) (a : Action)
    (d : Descriptor) : T.act storeFault s a ≠ .leaves d := by
  have hexcept : ∀ x : Except Event State, Outcome.ofExcept x ≠ .leaves d := by
    intro x
    cases x <;> exact Outcome.noConfusion
  cases a with
  | compute => exact Outcome.noConfusion
  | store a b =>
    simp only [Tables.act]
    split <;> exact Outcome.noConfusion
  | loadSegment r sel => exact hexcept _
  | farJump sel eip =>
    simp only [Tables.act, Tables.farJump, h.cpl]
    split
    · exact Outcome.noConfusion
    · next d' hd =>
      split
      · split
        · exact Outcome.noConfusion
        · split <;> exact Outcome.noConfusion
      · next hsystem =>
        have hdpl := hT.system sel d' hd (Bool.eq_false_iff.2 hsystem)
        rw [if_pos (.inl hdpl)]
        exact Outcome.noConfusion
  | farReturn F esp => exact hexcept _
  | iret F esp =>
    simp only [Tables.act]
    split
    · simp only [Tables.nestedReturn, hT.link]
      exact Outcome.noConfusion
    · exact hexcept _
  | port p width =>
    simp only [Tables.act]
    split <;> exact Outcome.noConfusion
  | setInterrupts on =>
    simp only [Tables.act]
    split <;> exact Outcome.noConfusion
  | privileged => exact Outcome.noConfusion
  | event e => exact Outcome.noConfusion

theorem Tables.Sealed.act_port (hT : T.Sealed s.mem) (h : T.Confines s) (p : UInt16)
    (width : Nat) : T.act storeFault s (.port p width) = .raises (protection 0) := by
  have hbitmap := hT.bitmap
  have hout : T.bitmapAllows s.mem p width = false := by
    rw [Tables.bitmapAllows, decide_eq_false (by omega), Bool.false_and]
  simp only [Tables.act, h.cpl, h.iopl, hout]
  rfl

/-- An action changes memory only where the pages let it. -/
theorem Tables.act_mem {a : Action} (ha : T.act storeFault s a = .goesOn s')
    (hx : storeFault s.mem x ≠ none) : s'.mem x = s.mem x := by
  cases a with
  | compute =>
    cases ha
    rfl
  | store a b =>
    simp only [Tables.act] at ha
    split at ha
    · next hnone =>
      cases ha
      exact Function.update_of_ne (by rintro rfl; exact hx hnone) _ _
    · cases ha
  | loadSegment r sel =>
    obtain ⟨⟨⟩, -, rfl⟩ := ofExcept_map_goesOn ha
    rfl
  | farJump sel eip =>
    simp only [Tables.act, Tables.farJump] at ha
    grind [State.setSeg]
  | farReturn F esp =>
    obtain ⟨⟨⟩, -, rfl⟩ := ofExcept_map_goesOn ha
    exact congrFun (T.returned_mem s F _ _) x
  | iret F esp =>
    simp only [Tables.act] at ha
    split at ha
    · exact absurd ha (T.nestedReturn_ne_goesOn s.mem)
    · obtain ⟨⟨⟩, -, rfl⟩ := ofExcept_map_goesOn ha
      exact congrFun (T.returned_mem s F _ _) x
  | port p width =>
    simp only [Tables.act] at ha
    split at ha <;> cases ha
    rfl
  | setInterrupts on =>
    simp only [Tables.act] at ha
    split at ha <;> cases ha
    rfl
  | privileged => cases ha
  | event e => cases ha

end Program

end X86
