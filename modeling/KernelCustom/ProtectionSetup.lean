import KernelCustom.Descriptors
import KernelCustom.InterruptFrames
import KernelCustom.KeyWait
import KernelCustom.Paging

namespace KernelCustom
open X86
set_option autoImplicit true

/-- `struct gdt_entry`. -/
structure GdtEntry where
  limitLow : UInt16
  baseLow : UInt16
  baseMiddle : UInt8
  access : UInt8
  granularity : UInt8
  baseHigh : UInt8

/-- The words of the packed structure. -/
def GdtEntry.descriptor (e : GdtEntry) : Descriptor where
  low := .ofNat (e.limitLow.toNat + 65536 * e.baseLow.toNat)
  high := .ofNat (e.baseMiddle.toNat + 256 * e.access.toNat + 65536 * e.granularity.toNat +
    16777216 * e.baseHigh.toNat)

/-- `struct tss_entry`. The words from `esp1` to `ldt` are used by no function. -/
structure TssEntry where
  prevTss : UInt32
  esp0 : UInt32
  ss0 : UInt32
  others : Nat → UInt32
  trap : UInt16
  iomapBase : UInt16

/-- The 26 words of the packed structure. -/
def TssEntry.word (t : TssEntry) : Nat → UInt32
  | 0 => t.prevTss
  | 1 => t.esp0
  | 2 => t.ss0
  | 25 => .ofNat (t.trap.toNat + 65536 * t.iomapBase.toNat)
  | i => t.others i

/-- `struct idt_entry`. -/
structure IdtEntry where
  baseLo : UInt16
  sel : UInt16
  always0 : UInt8
  flags : UInt8
  baseHi : UInt16

/-- The words of the packed structure. -/
def IdtEntry.descriptor (e : IdtEntry) : Descriptor where
  low := .ofNat (e.baseLo.toNat + 65536 * e.sel.toNat)
  high := .ofNat (e.always0.toNat + 256 * e.flags.toNat + 65536 * e.baseHi.toNat)

/-- The stubs that the interrupt table leads to. -/
inductive Stub where
  | interrupt (stub : InterruptStub)
  | exception (isr : Isr)
  deriving DecidableEq

def Stub.vector : Stub → Nat
  | interrupt .keyboard => 0x21
  | interrupt .syscall => 0x80
  | interrupt .pageFault => 0x0E
  | exception isr => isr.vector.toNat

/-- All stubs, in the order in which `idt_init` registers them. -/
def Stub.all : List Stub :=
  [interrupt .keyboard, interrupt .syscall, interrupt .pageFault, exception .de, exception .nm,
    exception .df, exception .ts, exception .np, exception .ss, exception .gp]

def Stub.find (vector : Nat) : Option Stub := all.find? fun stub => stub.vector = vector

/-- Where the linker put the tables, `g_user_kernel_esp`, the stack of `boot.s` and the stubs. The
objects of `memory.c` are those of a layout. -/
structure KernelImage (L : Layout) where
  gdt : UInt32
  tss : UInt32
  idt : UInt32
  gUserKernelEsp : UInt32
  stackBottom : UInt32
  stub : Stub → UInt32
  placed : ∀ x ∈ [(gdt.toNat, 48), (tss.toNat, 104), (idt.toNat, 2048), (gUserKernelEsp.toNat, 4),
    (stackBottom.toNat, 16384)], x.1 + x.2 ≤ L.kernelEnd
  apart : [(gdt.toNat, 48), (tss.toNat, 104), (idt.toNat, 2048), (gUserKernelEsp.toNat, 4),
    (stackBottom.toNat, 16384), (L.gPageDirectory, 4096), (L.gPageTables, 131072)].Pairwise
      fun x y => x.1 + x.2 ≤ y.1 ∨ y.1 + y.2 ≤ x.1

/-- The tables, the operands of `lgdt` and `lidt`, and what the processor has loaded. -/
structure ProtectionState where
  gdt : Nat → GdtEntry
  gp : TableReg
  tss : TssEntry
  idt : UInt8 → IdtEntry
  idtPtr : TableReg
  tables : Tables
  seg : SegReg → UInt16

def gdtSetGate (gdt : Nat → GdtEntry) (num : Nat) (base limit : UInt32) (access gran : UInt8) :
    Nat → GdtEntry :=
  Function.update gdt num
    { baseLow := (base &&& 0xFFFF).toUInt16
      baseMiddle := ((base >>> 16) &&& 0xFF).toUInt8
      baseHigh := ((base >>> 24) &&& 0xFF).toUInt8
      limitLow := (limit &&& 0xFFFF).toUInt16
      granularity := ((limit >>> 16) &&& 0x0F).toUInt8 ||| (gran &&& 0xF0)
      access }

def sizeofTss : Nat := 104

def tssInit (I : KernelImage L) (s : ProtectionState) (ss0 esp0 : UInt32) : ProtectionState :=
  let base := I.tss
  let limit := UInt32.ofNat (sizeofTss - 1)
  -- the loop over all the bytes
  let tss : TssEntry := ⟨0, 0, 0, fun _ => 0, 0, 0⟩
  let tss := { tss with ss0, esp0, iomapBase := .ofNat sizeofTss }
  { s with tss, gdt := gdtSetGate s.gdt 5 base limit 0x89 0x00 }

/-- `gdt_flush`, from a far jump of the kernel on. -/
def gdtFlush (s : ProtectionState) (gp : TableReg) : ProtectionState :=
  { s with
    tables := { s.tables with gdtr := gp }
    seg := fun r => if r = .cs then 0x08 else 0x10 }

/-- `ltr`: the processor takes the place of the task and marks it as busy. -/
def ltr (s : ProtectionState) (sel : UInt16) : ProtectionState :=
  let e := s.gdt (sel.toNat / 8)
  { s with
    tables := { s.tables with task := ⟨sel, .ofNat e.descriptor.base, e.descriptor.limit⟩ }
    gdt := Function.update s.gdt (sel.toNat / 8) { e with access := e.access ||| 2 } }

def gdtInit (I : KernelImage L) (s : ProtectionState) : ProtectionState :=
  let gp := { limit := 8 * 6 - 1, base := I.gdt }
  let gdt := gdtSetGate s.gdt 0 0 0 0 0
  let gdt := gdtSetGate gdt 1 0 0xFFFFFFFF 0x9A 0xCF
  let gdt := gdtSetGate gdt 2 0 0xFFFFFFFF 0x92 0xCF
  let gdt := gdtSetGate gdt 3 0 0xFFFFFFFF 0xFA 0xCF
  let gdt := gdtSetGate gdt 4 0 0xFFFFFFFF 0xF2 0xCF
  let s := tssInit I { s with gp, gdt } 0x10 0x90000
  ltr (gdtFlush s s.gp) 0x28

def idtSetGate (idt : UInt8 → IdtEntry) (num : UInt8) (base : UInt32) (sel : UInt16)
    (flags : UInt8) : UInt8 → IdtEntry :=
  Function.update idt num
    { baseLo := (base &&& 0xFFFF).toUInt16
      baseHi := ((base >>> 16) &&& 0xFFFF).toUInt16
      sel
      always0 := 0
      flags }

/-- `idt_init`, without its writes to the ports. -/
def idtInit (I : KernelImage L) (s : ProtectionState) : ProtectionState :=
  let idt := (List.range 256).foldl (fun idt i => idtSetGate idt (.ofNat i) 0 0x08 0) s.idt
  let idt := idtSetGate idt 0x21 (I.stub (.interrupt .keyboard)) 0x08 0x8E
  let idt := idtSetGate idt 0x80 (I.stub (.interrupt .syscall)) 0x08 0xEE
  let idt := idtSetGate idt 0x0E (I.stub (.interrupt .pageFault)) 0x08 0x8E
  let idt := idtSetGate idt 0x00 (I.stub (.exception .de)) 0x08 0x8E
  let idt := idtSetGate idt 0x07 (I.stub (.exception .nm)) 0x08 0x8E
  let idt := idtSetGate idt 0x08 (I.stub (.exception .df)) 0x08 0x8E
  let idt := idtSetGate idt 0x0A (I.stub (.exception .ts)) 0x08 0x8E
  let idt := idtSetGate idt 0x0B (I.stub (.exception .np)) 0x08 0x8E
  let idt := idtSetGate idt 0x0C (I.stub (.exception .ss)) 0x08 0x8E
  let idt := idtSetGate idt 0x0D (I.stub (.exception .gp)) 0x08 0x8E
  let idtPtr := { limit := 8 * 256 - 1, base := I.idt }
  { s with idt, idtPtr, tables := { s.tables with idtr := idtPtr } }

/-- The memory holds the tables. -/
structure ProtectionState.Laid (I : KernelImage L) (s : ProtectionState) (m : Memory) : Prop where
  gdt : HoldsWords m I.gdt 12 (descriptorWords fun i => (s.gdt i).descriptor)
  tss : HoldsWords m I.tss 26 s.tss.word
  idt : HoldsWords m I.idt 512 (descriptorWords fun i => (s.idt (.ofNat i)).descriptor)

/-- Where `kmain` is behind `gdt_init` and `idt_init`. A program that is started changes `esp0`. -/
def booted (I : KernelImage L) (s : ProtectionState) (esp0 : UInt32) : ProtectionState :=
  let s := idtInit I (gdtInit I s)
  { s with tss := { s.tss with esp0 } }

/-! What the processor reads is what the kernel has written. -/

theorem toNat_low16 (w : UInt32) : (w &&& 0xFFFF).toUInt16.toNat = w.toNat % 65536 := by
  rw [UInt32.toNat_toUInt16, UInt32.toNat_and]
  have hand : w.toNat &&& 65535 = w.toNat % 65536 := Nat.and_two_pow_sub_one_eq_mod w.toNat 16
  simp only [UInt32.reduceToNat]
  omega

theorem toNat_bits (w : UInt32) (k : Nat) (hk : k < 32) (mask : UInt32) (n : Nat) (hn : n ≤ 8)
    (hmask : mask.toNat = 2 ^ n - 1) :
    ((w >>> .ofNat k) &&& mask).toUInt8.toNat = w.toNat / 2 ^ k % 2 ^ n := by
  have hpow : 2 ^ n ≤ 2 ^ 8 := Nat.pow_le_pow_right (by decide) hn
  have hlt : w.toNat / 2 ^ k % 2 ^ n < 2 ^ n := Nat.mod_lt _ (Nat.two_pow_pos n)
  rw [UInt32.toNat_toUInt8, UInt32.toNat_and, hmask, Nat.and_two_pow_sub_one_eq_mod,
    UInt32.toNat_shiftRight, UInt32.toNat_ofNat', Nat.mod_eq_of_lt (by omega : k < 2 ^ 32),
    Nat.mod_eq_of_lt hk, Nat.shiftRight_eq_div_pow]
  exact Nat.mod_eq_of_lt (by omega)

theorem toNat_granularity (x gran : UInt8) (hx : x.toNat < 16) :
    (x ||| (gran &&& 0xF0)).toNat = x.toNat + gran.toNat / 16 * 16 := by
  have hhigh : ∀ g : Fin 256, g.val &&& 0xF0 = 2 ^ 4 * (g.val / 16) := by
    decide +kernel
  have hg := hhigh ⟨gran.toNat, gran.toNat_lt⟩
  have hor := Nat.two_pow_add_eq_or_of_lt (i := 4) hx (gran.toNat / 16)
  rw [UInt8.toNat_or, UInt8.toNat_and]
  simp only [UInt8.reduceToNat]
  rw [hg, Nat.or_comm, ← hor]
  omega

theorem GdtEntry.descriptor_fields (e : GdtEntry) :
    e.descriptor.base = e.baseLow.toNat + 65536 * e.baseMiddle.toNat + 16777216 * e.baseHigh.toNat ∧
      e.descriptor.access = e.access.toNat ∧
      e.descriptor.limit =
        (let limit := e.limitLow.toNat + 65536 * (e.granularity.toNat % 16)
        if e.granularity.toNat.testBit 7 then 4096 * limit + 4095 else limit) := by
  obtain ⟨h₁, h₂⟩ := And.intro e.limitLow.toNat_lt e.baseLow.toNat_lt
  obtain ⟨h₃, h₄⟩ := And.intro e.baseMiddle.toNat_lt e.access.toNat_lt
  obtain ⟨h₅, h₆⟩ := And.intro e.granularity.toNat_lt e.baseHigh.toNat_lt
  have hlow : e.descriptor.low.toNat = e.limitLow.toNat + 65536 * e.baseLow.toNat := by
    rw [GdtEntry.descriptor, UInt32.toNat_ofNat']
    omega
  have hhigh : e.descriptor.high.toNat = e.baseMiddle.toNat + 256 * e.access.toNat +
      65536 * e.granularity.toNat + 16777216 * e.baseHigh.toNat := by
    rw [GdtEntry.descriptor, UInt32.toNat_ofNat']
    omega
  rw [Descriptor.base, Descriptor.access, Descriptor.limit, hlow, hhigh,
    Nat.testBit_eq_decide_div_mod_eq, Nat.testBit_eq_decide_div_mod_eq]
  simp only [decide_eq_true_eq]
  refine ⟨by omega, by omega, ?_⟩
  split <;> split <;> omega

/-- What `gdt_set_gate` encodes is what the processor decodes. -/
theorem gdtSetGate_descriptor (gdt : Nat → GdtEntry) (num : Nat) (base limit : UInt32)
    (access gran : UInt8) :
    let d := (gdtSetGate gdt num base limit access gran num).descriptor
    d.base = base.toNat ∧ d.access = access.toNat ∧
      d.limit =
        if gran.toNat.testBit 7 then 4096 * (limit.toNat % 1048576) + 4095
        else limit.toNat % 1048576 := by
  have hlow := toNat_low16 base
  have hmid : ((base >>> 16) &&& 0xFF).toUInt8.toNat = base.toNat / 65536 % 256 :=
    toNat_bits base 16 (by decide) 0xFF 8 (by decide) rfl
  have hhigh : ((base >>> 24) &&& 0xFF).toUInt8.toNat = base.toNat / 16777216 % 256 :=
    toNat_bits base 24 (by decide) 0xFF 8 (by decide) rfl
  have hlimit := toNat_low16 limit
  have hnibble : ((limit >>> 16) &&& 0x0F).toUInt8.toNat = limit.toNat / 65536 % 16 :=
    toNat_bits limit 16 (by decide) 0x0F 4 (by decide) rfl
  have hgran := toNat_granularity ((limit >>> 16) &&& 0x0F).toUInt8 gran (by omega)
  have hb := base.toNat_lt
  obtain ⟨hbase, haccess, hlim⟩ := GdtEntry.descriptor_fields
    (gdtSetGate gdt num base limit access gran num)
  simp only [gdtSetGate, Function.update_self] at hbase haccess hlim ⊢
  rw [hbase, haccess, hlim, hlow, hmid, hhigh, hlimit, hgran, hnibble,
    Nat.testBit_eq_decide_div_mod_eq, Nat.testBit_eq_decide_div_mod_eq]
  simp only [decide_eq_true_eq]
  refine ⟨by omega, trivial, ?_⟩
  split <;> split <;> omega

/-- What `idt_set_gate` encodes is what the processor decodes. -/
theorem idtSetGate_descriptor (idt : UInt8 → IdtEntry) (num : UInt8) (base : UInt32)
    (sel : UInt16) (flags : UInt8) :
    let d := (idtSetGate idt num base sel flags num).descriptor
    d.offset = base ∧ d.selector = sel ∧ d.access = flags.toNat := by
  have hlow := toNat_low16 base
  have hhigh : ((base >>> 16) &&& 0xFFFF).toUInt16.toNat = base.toNat / 65536 := by
    have hshift : (base >>> 16).toNat = base.toNat / 65536 := Nat.shiftRight_eq_div_pow _ 16
    have hb := base.toNat_lt
    rw [toNat_low16, hshift]
    omega
  have hb := base.toNat_lt
  have hs := sel.toNat_lt
  have hf := flags.toNat_lt
  simp only [idtSetGate, Function.update_self, IdtEntry.descriptor, Descriptor.offset,
    Descriptor.selector, Descriptor.access, UInt32.toNat_ofNat', hlow, hhigh, UInt8.toNat_zero,
    ← UInt32.toNat_inj, ← UInt16.toNat_inj, UInt16.toNat_ofNat']
  omega

/-! The tables behind `gdt_init` and `idt_init`. -/

def kernelCode : Descriptor := ⟨0x0000FFFF, 0x00CF9A00⟩

def kernelData : Descriptor := ⟨0x0000FFFF, 0x00CF9200⟩

def userCode : Descriptor := ⟨0x0000FFFF, 0x00CFFA00⟩

def userData : Descriptor := ⟨0x0000FFFF, 0x00CFF200⟩

section Booted

variable {L : Layout} {I : KernelImage L} {s : ProtectionState} {esp0 : UInt32} {m : Memory}

theorem booted_gdt : (booted I s esp0).gdt = (gdtInit I s).gdt := rfl

theorem gdtSetGate_of_ne (gdt : Nat → GdtEntry) (base limit : UInt32) (access gran : UInt8)
    (h : i ≠ num) : gdtSetGate gdt num base limit access gran i = gdt i :=
  Function.update_of_ne h _ _

theorem ltr_gdt_of_ne (s : ProtectionState) (sel : UInt16) (h : i ≠ sel.toNat / 8) :
    (ltr s sel).gdt i = s.gdt i :=
  Function.update_of_ne h _ _

/-- `tss_init` and `ltr` leave the other descriptors alone. -/
theorem gdtInit_gdt (h : i ≠ 5) :
    (gdtInit I s).gdt i =
      gdtSetGate (gdtSetGate (gdtSetGate (gdtSetGate (gdtSetGate s.gdt 0 0 0 0 0)
        1 0 0xFFFFFFFF 0x9A 0xCF) 2 0 0xFFFFFFFF 0x92 0xCF) 3 0 0xFFFFFFFF 0xFA 0xCF)
        4 0 0xFFFFFFFF 0xF2 0xCF i := by
  rw [gdtInit, ltr_gdt_of_ne _ _ h]
  exact gdtSetGate_of_ne _ _ _ _ _ h

theorem gdtInit_segments :
    ((gdtInit I s).gdt 1).descriptor = kernelCode ∧ ((gdtInit I s).gdt 2).descriptor = kernelData ∧
      ((gdtInit I s).gdt 3).descriptor = userCode ∧
      ((gdtInit I s).gdt 4).descriptor = userData := by
  refine ⟨?_, ?_, ?_, ?_⟩
  · rw [gdtInit_gdt (by decide), gdtSetGate_of_ne _ _ _ _ _ (by decide),
      gdtSetGate_of_ne _ _ _ _ _ (by decide), gdtSetGate_of_ne _ _ _ _ _ (by decide),
      gdtSetGate, Function.update_self]
    decide
  · rw [gdtInit_gdt (by decide), gdtSetGate_of_ne _ _ _ _ _ (by decide),
      gdtSetGate_of_ne _ _ _ _ _ (by decide), gdtSetGate, Function.update_self]
    decide
  · rw [gdtInit_gdt (by decide), gdtSetGate_of_ne _ _ _ _ _ (by decide), gdtSetGate,
      Function.update_self]
    decide
  · rw [gdtInit_gdt (by decide), gdtSetGate, Function.update_self]
    decide

/-- The descriptor of the task, before `ltr` marks it as busy. -/
theorem tssInit_task (I : KernelImage L) (s : ProtectionState) (ss0 esp : UInt32) :
    let d := ((tssInit I s ss0 esp).gdt 5).descriptor
    d.base = I.tss.toNat ∧ d.access = 0x89 ∧ d.limit = 103 :=
  gdtSetGate_descriptor s.gdt 5 I.tss (.ofNat (sizeofTss - 1)) 0x89 0x00

theorem ltr_gdt (s : ProtectionState) (sel : UInt16) :
    ((ltr s sel).gdt (sel.toNat / 8)).access = (s.gdt (sel.toNat / 8)).access ||| 2 := by
  simp only [ltr, Function.update_self]

theorem gdtInit_task : ((gdtInit I s).gdt 5).descriptor.access = 0x8B := by
  refine (GdtEntry.descriptor_fields _).2.1.trans ?_
  rw [gdtInit]
  refine (congrArg UInt8.toNat (ltr_gdt _ 0x28)).trans ?_
  have hsel : (0x28 : UInt16).toNat / 8 = 5 := by decide
  simp only [gdtFlush, tssInit, gdtSetGate, hsel, Function.update_self]
  decide

theorem booted_tables :
    (booted I s esp0).tables = ⟨⟨I.gdt, 47⟩, ⟨I.idt, 2047⟩, ⟨0x28, I.tss, 103⟩⟩ := by
  have hsel : (0x28 : UInt16).toNat / 8 = 5 := by decide
  simp only [booted, idtInit, gdtInit, ltr, gdtFlush, hsel]
  rw [(tssInit_task I _ _ _).1, (tssInit_task I _ _ _).2.2, UInt32.ofNat_toNat]
  rfl

/-- The loop of `idt_init` empties every gate. -/
theorem clearGates_apply (idt : UInt8 → IdtEntry) (n : Nat) (hn : n ≤ 256) (num : UInt8) :
    (List.range n).foldl (fun idt i => idtSetGate idt (.ofNat i) 0 0x08 0) idt num =
      if num.toNat < n then ⟨0, 0x08, 0, 0, 0⟩ else idt num := by
  induction n with
  | zero => rfl
  | succ n ih =>
    rw [List.range_succ, List.foldl_append, List.foldl_cons, List.foldl_nil, idtSetGate,
      Function.update_apply, ih (by omega)]
    have hnum : num = .ofNat n ↔ num.toNat = n := by
      rw [← UInt8.toNat_inj, UInt8.toNat_ofNat']
      omega
    by_cases heq : num.toNat = n
    · rw [if_pos (hnum.2 heq), if_pos (by omega)]
      rfl
    · rw [if_neg fun h => heq (hnum.1 h)]
      by_cases hlt : num.toNat < n
      · rw [if_pos hlt, if_pos (by omega)]
      · rw [if_neg hlt, if_neg (by omega)]

def Stub.flags (stub : Stub) : UInt8 := if stub = .interrupt .syscall then 0xEE else 0x8E

/-- The gate that `idt_init` sets for a stub. -/
def stubGate (I : KernelImage L) (stub : Stub) : IdtEntry where
  baseLo := (I.stub stub &&& 0xFFFF).toUInt16
  baseHi := ((I.stub stub >>> 16) &&& 0xFFFF).toUInt16
  sel := 0x08
  always0 := 0
  flags := stub.flags

theorem setStubs_apply (idt : UInt8 → IdtEntry) (num : UInt8) {l : List Stub}
    (hl : l.Pairwise fun x y => x.vector ≠ y.vector) (hv : ∀ stub ∈ l, stub.vector < 256) :
    l.foldl (fun idt stub => idtSetGate idt (.ofNat stub.vector) (I.stub stub) 0x08 stub.flags)
        idt num =
      match l.find? fun stub => stub.vector = num.toNat with
      | some stub => stubGate I stub
      | none => idt num := by
  induction l generalizing idt with
  | nil => rfl
  | cons stub l ih =>
    rw [List.pairwise_cons] at hl
    have hlt := hv stub List.mem_cons_self
    rw [List.foldl_cons, ih _ hl.2 fun x hx => hv x (List.mem_cons_of_mem _ hx), idtSetGate,
      Function.update_apply]
    have hnum : num = .ofNat stub.vector ↔ stub.vector = num.toNat := by
      rw [← UInt8.toNat_inj, UInt8.toNat_ofNat']
      omega
    by_cases heq : stub.vector = num.toNat
    · have hnone : (l.find? fun x => x.vector = num.toNat) = none := by
        refine List.find?_eq_none.2 fun x hx => ?_
        have hne := hl.1 x hx
        rw [heq] at hne
        simpa using hne.symm
      rw [hnone, List.find?_cons_of_pos (by simpa using heq)]
      exact if_pos (hnum.2 heq)
    · rw [List.find?_cons_of_neg (by simpa using heq), if_neg fun h => heq (hnum.1 h)]

theorem stub_vector_lt (stub : Stub) : stub.vector < 256 := by
  cases stub with
  | interrupt stub => cases stub <;> decide
  | exception isr => cases isr <;> decide

theorem Stub.find_vector (h : Stub.find v = some stub) : stub.vector = v := by
  have hp := List.find?_some h
  exact of_decide_eq_true hp

theorem Stub.find_none (h : Stub.find v = none) (stub : Stub) : stub.vector ≠ v := by
  have hall := List.find?_eq_none.1 h stub (by cases stub with
    | interrupt stub => cases stub <;> decide
    | exception isr => cases isr <;> decide)
  simpa using hall

/-- Every vector has the gate of its stub, and none without a stub. -/
theorem booted_idt (num : UInt8) :
    (booted I s esp0).idt num =
      match Stub.find num.toNat with
      | some stub => stubGate I stub
      | none => ⟨0, 0x08, 0, 0, 0⟩ := by
  have hclear := clearGates_apply s.idt 256 (Nat.le_refl _) num
  rw [if_pos num.toNat_lt] at hclear
  rw [← hclear]
  exact setStubs_apply (l := Stub.all) _ num (by decide) fun stub _ => stub_vector_lt stub

theorem stubGate_fields (I : KernelImage L) (stub : Stub) :
    (stubGate I stub).descriptor.offset = I.stub stub ∧
      (stubGate I stub).descriptor.selector = 0x08 ∧
      (stubGate I stub).descriptor.access = stub.flags.toNat := by
  have h := idtSetGate_descriptor (fun _ => stubGate I stub) 0 (I.stub stub) 0x08 stub.flags
  rw [idtSetGate, Function.update_self] at h
  exact h

/-- The flags that the waits for keys go by are those of the gates. -/
theorem booted_flags (num : UInt8) :
    ((booted I s esp0).idt num).flags.toNat = idtFlags num.toNat := by
  rw [booted_idt]
  cases h : Stub.find num.toNat with
  | some stub =>
    rw [← Stub.find_vector h]
    change stub.flags.toNat = idtFlags stub.vector
    cases stub with
    | interrupt stub => cases stub <;> decide
    | exception isr => cases isr <;> decide
  | none =>
    have hne := Stub.find_none h
    have h₁ : num.toNat ≠ 0x21 := (hne (.interrupt .keyboard)).symm
    have h₂ : num.toNat ≠ 0x80 := (hne (.interrupt .syscall)).symm
    have h₃ : num.toNat ≠ 0x0E := (hne (.interrupt .pageFault)).symm
    have hisr : num.toNat ∉ [0x00, 0x07, 0x08, 0x0A, 0x0B, 0x0C, 0x0D] := by
      simp only [List.mem_cons, List.not_mem_nil, or_false, not_or]
      exact ⟨(hne (.exception .de)).symm, (hne (.exception .nm)).symm, (hne (.exception .df)).symm,
        (hne (.exception .ts)).symm, (hne (.exception .np)).symm, (hne (.exception .ss)).symm,
        (hne (.exception .gp)).symm⟩
    rw [idtFlags, if_neg h₁, if_neg h₂, if_neg h₃, if_neg hisr]
    rfl

/-- What the processor finds behind a selector. -/
theorem booted_descriptor (hm : (booted I s esp0).Laid I m) (sel : UInt16) :
    (booted I s esp0).tables.descriptor m sel =
      if sel.toNat / 4 = 0 ∨ sel.toNat / 4 % 2 = 1 ∨ 6 ≤ sel.toNat / 8 then none
      else some ((booted I s esp0).gdt (sel.toNat / 8)).descriptor := by
  rw [Tables.descriptor, booted_tables]
  have hentry := hm.gdt.entry (r := ⟨I.gdt, 47⟩) (n := 6) rfl (sel.toNat / 8)
  rw [hentry]
  split
  · rw [if_pos (by omega)]
  · split
    · rw [if_neg (by omega)]
    · rw [if_pos (by omega)]

theorem booted_descriptor_of (hm : (booted I s esp0).Laid I m) {sel : UInt16}
    (hi : sel.toNat / 8 = i) (hti : sel.toNat / 4 % 2 = 0) (hpos : 0 < i) (hlt : i < 6) :
    (booted I s esp0).tables.descriptor m sel = some ((gdtInit I s).gdt i).descriptor := by
  rw [booted_descriptor hm, if_neg (by omega), hi, booted_gdt]

theorem booted_selectors (hm : (booted I s esp0).Laid I m) :
    (booted I s esp0).tables.descriptor m 0x08 = some kernelCode ∧
      (booted I s esp0).tables.descriptor m 0x10 = some kernelData ∧
      (booted I s esp0).tables.descriptor m 0x1B = some userCode ∧
      (booted I s esp0).tables.descriptor m 0x23 = some userData := by
  obtain ⟨h₁, h₂, h₃, h₄⟩ := gdtInit_segments (I := I) (s := s)
  refine ⟨?_, ?_, ?_, ?_⟩
  · rw [booted_descriptor_of (i := 1) hm (by decide) (by decide) (by decide) (by decide), h₁]
  · rw [booted_descriptor_of (i := 2) hm (by decide) (by decide) (by decide) (by decide), h₂]
  · rw [booted_descriptor_of (i := 3) hm (by decide) (by decide) (by decide) (by decide), h₃]
  · rw [booted_descriptor_of (i := 4) hm (by decide) (by decide) (by decide) (by decide), h₄]

/-- What the processor finds behind a vector. -/
theorem booted_entry (hm : (booted I s esp0).Laid I m) (v : Nat) :
    (booted I s esp0).tables.idtr.entry m v =
      if v < 256 then
        some (match Stub.find v with
          | some stub => (stubGate I stub).descriptor
          | none => ⟨0x00080000, 0⟩)
      else none := by
  rw [booted_tables, hm.idt.entry (r := ⟨I.idt, 2047⟩) (n := 256) rfl v]
  split
  · next hv =>
    have hnum : (UInt8.ofNat v).toNat = v := by
      rw [UInt8.toNat_ofNat']
      omega
    have hempty : (⟨0, 0x08, 0, 0, 0⟩ : IdtEntry).descriptor = ⟨0x00080000, 0⟩ := by decide
    rw [booted_idt, hnum]
    cases Stub.find v with
    | some stub => rfl
    | none => exact congrArg some hempty
  · rfl

/-- Every selector that is not null finds one of the four segments or the task. -/
theorem booted_kinds {sel : UInt16} (hm : (booted I s esp0).Laid I m)
    (hd : (booted I s esp0).tables.descriptor m sel = some d) :
    sel.toNat / 4 % 2 = 0 ∧
      (sel.toNat / 8 = 1 ∧ d = kernelCode ∨ sel.toNat / 8 = 2 ∧ d = kernelData ∨
        sel.toNat / 8 = 3 ∧ d = userCode ∨ sel.toNat / 8 = 4 ∧ d = userData ∨
        sel.toNat / 8 = 5 ∧ d.access = 0x8B) := by
  obtain ⟨h₁, h₂, h₃, h₄⟩ := gdtInit_segments (I := I) (s := s)
  rw [booted_descriptor hm] at hd
  split at hd
  · cases hd
  · next hsel =>
    cases hd
    have hcases : sel.toNat / 8 = 1 ∨ sel.toNat / 8 = 2 ∨ sel.toNat / 8 = 3 ∨
        sel.toNat / 8 = 4 ∨ sel.toNat / 8 = 5 := by omega
    rw [booted_gdt]
    refine ⟨by omega, ?_⟩
    rcases hcases with h | h | h | h | h
    · exact .inl ⟨h, h ▸ h₁⟩
    · exact .inr (.inl ⟨h, h ▸ h₂⟩)
    · exact .inr (.inr (.inl ⟨h, h ▸ h₃⟩))
    · exact .inr (.inr (.inr (.inl ⟨h, h ▸ h₄⟩)))
    · exact .inr (.inr (.inr (.inr ⟨h, h ▸ gdtInit_task⟩)))

theorem booted_sealed (hm : (booted I s esp0).Laid I m) : (booted I s esp0).tables.Sealed m := by
  refine ⟨?_, ?_, ?_⟩
  · intro sel d hd hsystem
    obtain ⟨-, hkinds⟩ := booted_kinds hm hd
    rcases hkinds with ⟨-, rfl⟩ | ⟨-, rfl⟩ | ⟨-, rfl⟩ | ⟨-, rfl⟩ | ⟨-, haccess⟩
    · exact absurd hsystem (by decide)
    · exact absurd hsystem (by decide)
    · exact absurd hsystem (by decide)
    · exact absurd hsystem (by decide)
    · rw [Descriptor.dpl, haccess]
      decide
  · have hlink := hm.tss 0 (by decide)
    rw [show I.tss + 4 * UInt32.ofNat 0 = I.tss by grind] at hlink
    have hprev : (booted I s esp0).tss.word 0 = 0 := rfl
    rw [booted_descriptor hm, booted_tables, hlink, hprev]
    exact if_pos (.inl (by decide))
  · have hmap := hm.tss 25 (by decide)
    rw [booted_tables]
    change 103 ≤ (load m (I.tss + 4 * .ofNat 25)).toNat / 65536
    have hword : (booted I s esp0).tss.word 25 =
        .ofNat ((0 : UInt16).toNat + 65536 * (UInt16.ofNat sizeofTss).toNat) := rfl
    rw [hmap, hword]
    decide

/-! Which stub an event leads to. -/

/-- The gate of a stub. -/
def KernelImage.gate (I : KernelImage L) (stub : Stub) (esp0 : UInt32) : Gate :=
  ⟨0x08, I.stub stub, 0x10, esp0⟩

/-- Where a stub begins. -/
def KernelImage.stubEntry (I : KernelImage L) (cpu : Cpu) (esp0 : UInt32) (x : State)
    (stub : Stub) : Option Nat → State
  | none => x.interrupt cpu (I.gate stub esp0)
  | some code => (x.interrupt cpu (I.gate stub esp0)).push (.ofNat code)

/-- A program may call the stub for system calls only. -/
def MayNotCall (cpl : Nat) (e : Event) (stub : Stub) : Prop :=
  e.isSoftware = true ∧ stub ≠ .interrupt .syscall ∧ 0 < cpl

instance (cpl : Nat) (e : Event) (stub : Stub) : Decidable (MayNotCall cpl e stub) := by
  unfold MayNotCall
  infer_instance

/-- The stub that an event leads to, with the error code that is pushed. What has no gate is a
general protection fault, and so is what may not be called. -/
def eventStub (cpl : Nat) (e : Event) : Stub × Option Nat :=
  match Stub.find e.vector with
  | some stub =>
    if MayNotCall cpl e stub then (.exception .gp, some (8 * e.vector + 2)) else (stub, e.code)
  | none => (.exception .gp, some (8 * e.vector + 2 + e.ext))

theorem stubGate_isGate (I : KernelImage L) (stub : Stub) :
    (stubGate I stub).descriptor.isGate = true ∧ (stubGate I stub).descriptor.present = true ∧
      (stubGate I stub).descriptor.kind = 14 ∧
      (stubGate I stub).descriptor.dpl = if stub = .interrupt .syscall then 3 else 0 := by
  obtain ⟨-, -, haccess⟩ := stubGate_fields I stub
  simp only [Descriptor.isGate, Descriptor.isSegment, Descriptor.kind, Descriptor.present,
    Descriptor.dpl, haccess, Stub.flags]
  split <;> decide

theorem innerStack_booted (hm : (booted I s esp0).Laid I m) (ext : Nat) :
    (booted I s esp0).tables.innerStack m 0 ext = .ok (0x10, esp0) := by
  have hesp := hm.tss 1 (by decide)
  have hss := hm.tss 2 (by decide)
  change load m (I.tss + 4) = esp0 at hesp
  change load m (I.tss + 8) = 0x10 at hss
  have hdata := (booted_selectors hm).2.1
  have htask : (booted I s esp0).tables.task = ⟨0x28, I.tss, 103⟩ :=
    congrArg Tables.task booted_tables
  have hsel : (0x10 : UInt32).toUInt16 = 0x10 := by decide
  have haddr : I.tss + .ofNat (8 * 0 + 4) = I.tss + 4 ∧ I.tss + .ofNat (8 * 0 + 8) = I.tss + 8 :=
    ⟨rfl, rfl⟩
  have hlimit : ¬ 103 < 8 * 0 + 9 := by decide
  have hok : ¬ ((0x10 : UInt16).toNat % 4 ≠ 0 ∨ kernelData.dpl ≠ 0 ∨
      kernelData.isWritable = false) := by decide
  have hpresent : ¬ kernelData.present = false := by decide
  simp only [Tables.innerStack, htask, hlimit, haddr.1, haddr.2, hesp, hss, hsel, hdata, hok,
    hpresent, if_false, reduceCtorEq]

/-- Where the processor goes for an event. -/
theorem booted_handler (hm : (booted I s esp0).Laid I x.mem) (e : Event) :
    (booted I s esp0).tables.handler e x =
      match Stub.find e.vector with
      | some stub =>
        if MayNotCall x.cpl e stub then .error (protection (8 * e.vector + 2 + e.ext))
        else .ok ((stubGate I stub).descriptor,
          if 0 < x.cpl then I.gate stub esp0
          else ⟨0x08, I.stub stub, x.seg .ss, x.reg .esp⟩)
      | none => .error (protection (8 * e.vector + 2 + e.ext)) := by
  rw [Tables.handler, booted_entry hm]
  cases hfind : Stub.find e.vector with
  | none =>
    have hempty : (⟨0x00080000, 0⟩ : Descriptor).isGate = false := by decide
    by_cases hv : e.vector < 256
    · simp only [hv, hempty, if_true, true_or]
    · simp only [hv, if_false]
  | some stub =>
    have hv : e.vector < 256 := Stub.find_vector hfind ▸ stub_vector_lt stub
    obtain ⟨hgate, hpresent, -, hdpl⟩ := stubGate_isGate I stub
    obtain ⟨hoffset, hsel, -⟩ := stubGate_fields I stub
    have hcall : e.isSoftware = true ∧ (stubGate I stub).descriptor.dpl < x.cpl ↔
        MayNotCall x.cpl e stub := by
      have hcpl : x.cpl < 4 := Nat.mod_lt _ (by decide)
      rw [hdpl, MayNotCall]
      split
      · next h =>
        constructor
        · rintro ⟨-, hlt⟩
          omega
        · rintro ⟨-, hne, -⟩
          exact absurd h hne
      · next h => simp only [h, ne_eq, not_false_eq_true, true_and]
    have hcode := (booted_selectors hm).1
    have hkernel : kernelCode.isCode = true ∧ kernelCode.present = true ∧
        kernelCode.isConforming = false ∧ kernelCode.dpl = 0 := by decide
    have hcs : withLevel 0x08 0 = 0x08 := by decide
    simp only [hv, if_true, hgate, hpresent, hcall, hsel, hcode, hkernel, hoffset, reduceCtorEq,
      false_or, Nat.not_lt_zero, if_false, true_and]
    by_cases hr : MayNotCall x.cpl e stub
    · simp only [hr, if_true]
    · by_cases hcpl : 0 < x.cpl
      · simp only [hr, hcpl, innerStack_booted hm, if_true, if_false, Except.map, hcs]
        rfl
      · have hzero : x.cpl = 0 := Nat.eq_zero_of_not_pos hcpl
        simp only [hzero, Nat.lt_irrefl, if_false, hcs]

theorem level_lt_iff (x : State) (sel : UInt16) (hsel : sel.toNat % 4 = 0) :
    level sel < level (x.seg .cs) ↔ 0 < x.cpl := by
  rw [UInt16.lt_iff_toNat_lt, toNat_level, toNat_level, hsel]
  rfl

/-- Without a change of level the stack in a gate does not matter. -/
theorem interrupt_same_level (cpu : Cpu) (x : State) (cs ss ss' : UInt16) (eip esp esp' : UInt32)
    (h : ¬ level cs < level (x.seg .cs)) :
    x.interrupt cpu ⟨cs, eip, ss, esp⟩ = x.interrupt cpu ⟨cs, eip, ss', esp'⟩ := by
  simp only [State.interrupt, if_neg h]

theorem booted_enter (cpu : Cpu) (hm : (booted I s esp0).Laid I x.mem) (e : Event) :
    (booted I s esp0).tables.enter cpu e x =
      match Stub.find e.vector with
      | some stub =>
        if MayNotCall x.cpl e stub then .error (protection (8 * e.vector + 2 + e.ext))
        else .ok (I.stubEntry cpu esp0 x stub e.code)
      | none => .error (protection (8 * e.vector + 2 + e.ext)) := by
  rw [Tables.enter, booted_handler hm]
  cases Stub.find e.vector with
  | none => rfl
  | some stub =>
    by_cases hr : MayNotCall x.cpl e stub
    · simp only [hr, if_true]
      rfl
    · simp only [hr, if_false, Except.map, State.through]
      have hkind : ¬ (stubGate I stub).descriptor.kind = 15 := by
        rw [(stubGate_isGate I stub).2.2.1]
        decide
      have hgate : x.interrupt cpu
          (if 0 < x.cpl then I.gate stub esp0 else ⟨0x08, I.stub stub, x.seg .ss, x.reg .esp⟩) =
          x.interrupt cpu (I.gate stub esp0) := by
        split
        · rfl
        · next hcpl =>
          exact interrupt_same_level cpu x _ _ _ _ _ _ fun h =>
            hcpl ((level_lt_iff x 0x08 (by decide)).1 h)
      rw [if_neg hkind, hgate]
      cases e.code <;> rfl

/-- An exception without a gate does not make a double fault. -/
theorem after_protection {e : Event} (h : ∀ stub : Stub, stub.vector ≠ e.vector) :
    e.after (protection code) = some (protection code) := by
  cases e with
  | software v => rfl
  | external v => rfl
  | exception v errorCode =>
    have h₈ : v ≠ 8 := (h (.exception .df)).symm
    have h₁₄ : v ≠ 14 := (h (.interrupt .pageFault)).symm
    have hcontributory : contributory v = false := by
      have hne : v ≠ 0 ∧ v ≠ 10 ∧ v ≠ 11 ∧ v ≠ 12 ∧ v ≠ 13 :=
        ⟨(h (.exception .de)).symm, (h (.exception .ts)).symm, (h (.exception .np)).symm,
          (h (.exception .ss)).symm, (h (.exception .gp)).symm⟩
      simp [contributory, hne]
    have hdoubles : Event.doubles (.exception v errorCode) (protection code) = false := by
      unfold Event.doubles
      split
      · next heq => cases heq; exact absurd rfl h₁₄
      · next heq => cases heq; rw [hcontributory, Bool.false_and]
      · rfl
    unfold Event.after
    split
    · next heq => cases heq; exact absurd rfl h₈
    · rw [hdoubles]
      rfl

/-- Whatever happens, at whatever level, the processor comes to one of the stubs: the exceptions
that can be raised on the way have gates. -/
theorem booted_take (cpu : Cpu) (hm : (booted I s esp0).Laid I x.mem) (e : Event) (n : Nat) :
    (booted I s esp0).tables.take cpu x (n + 2) e =
      some (I.stubEntry cpu esp0 x (eventStub x.cpl e).1 (eventStub x.cpl e).2) := by
  have hgp : ∀ code, (booted I s esp0).tables.enter cpu (protection code) x =
      .ok (I.stubEntry cpu esp0 x (.exception .gp) (some code)) := by
    intro code
    have hfind : Stub.find (protection code).vector = some (.exception .gp) := by
      change Stub.find 13 = _
      decide
    have hsoft : ¬ MayNotCall x.cpl (protection code) (.exception .gp) := by
      rintro ⟨h, -⟩
      cases h
    rw [booted_enter cpu hm, hfind]
    exact if_neg hsoft
  rw [Tables.take, booted_enter cpu hm, eventStub]
  cases hfind : Stub.find e.vector with
  | some stub =>
    by_cases hr : MayNotCall x.cpl e stub
    · have hext : e.ext = 0 := if_pos hr.1
      have hafter : e.after (protection (8 * e.vector + 2)) =
          some (protection (8 * e.vector + 2)) := by
        cases e with
        | software v => rfl
        | external v => cases hr.1
        | exception v code => cases hr.1
      simp only [hr, if_true, hext, Nat.add_zero, hafter, Option.bind_some]
      rw [Tables.take, hgp]
    · simp only [hr, if_false]
  | none =>
    have hafter : e.after (protection (8 * e.vector + 2 + e.ext)) =
        some (protection (8 * e.vector + 2 + e.ext)) :=
      after_protection fun stub h => Stub.find_none hfind stub h
    simp only [hafter, Option.bind_some]
    rw [Tables.take, hgp]

theorem eventStub_vector (cpl : Nat) (e : Event) :
    (eventStub cpl e).1 = .exception .gp ∨ (eventStub cpl e).1.vector = e.vector := by
  rw [eventStub]
  cases hfind : Stub.find e.vector with
  | none => exact .inl rfl
  | some stub =>
    by_cases hr : MayNotCall cpl e stub
    · left
      simp only [hr, if_true]
    · right
      simp only [hr, if_false]
      exact Stub.find_vector hfind

/-- From boot on every event, at every level, leads to a stub through its gate or to that for
general protection faults. A program that calls a vector comes to another one only for 0x80. -/
theorem events_reach_stubs (cpu : Cpu) (hm : (booted I s esp0).Laid I x.mem) (e : Event)
    (n : Nat) :
    (booted I s esp0).tables.take cpu x (n + 2) e =
        some (I.stubEntry cpu esp0 x (eventStub x.cpl e).1 (eventStub x.cpl e).2) ∧
      ((eventStub x.cpl e).1 = .exception .gp ∨ (eventStub x.cpl e).1.vector = e.vector) ∧
      (e.isSoftware = true → 0 < x.cpl → (eventStub x.cpl e).1 ≠ .exception .gp →
        e.vector = 0x80) := by
  refine ⟨booted_take cpu hm e n, eventStub_vector x.cpl e, fun hsoft hcpl hne => ?_⟩
  rw [eventStub] at hne
  cases hfind : Stub.find e.vector with
  | none =>
    rw [hfind] at hne
    exact absurd rfl hne
  | some stub =>
    rw [hfind] at hne
    by_cases hstub : stub = .interrupt .syscall
    · rw [← Stub.find_vector hfind, hstub]
      rfl
    · simp only [show MayNotCall x.cpl e stub from ⟨hsoft, hstub, hcpl⟩, if_true] at hne
      exact absurd rfl hne

/-- A memory with the tables in it. -/
def ProtectionState.place (I : KernelImage L) (s : ProtectionState) (m : Memory) : Memory :=
  wordsMemory I.gdt 12 (descriptorWords fun i => (s.gdt i).descriptor)
    (wordsMemory I.tss 26 s.tss.word
      (wordsMemory I.idt 512 (descriptorWords fun i => (s.idt (.ofNat i)).descriptor) m))

theorem wordsMemory_of_range {base a : UInt32} (words : Nat → UInt32) (m : Memory)
    (hb : base.toNat + 4 * n ≤ 4294967296)
    (ha : a.toNat < base.toNat ∨ base.toNat + 4 * n ≤ a.toNat) :
    wordsMemory base n words m a = m a := by
  have hlt := a.toNat_lt
  rw [wordsMemory, if_neg]
  rw [UInt32.toNat_sub]
  omega

theorem range_of_sub {a base : UInt32} {n : Nat} (hb : base.toNat + n ≤ 0x00800000)
    (h : (a - base).toNat < n) : base.toNat ≤ a.toNat ∧ a.toNat < base.toNat + n := by
  have ha := a.toNat_lt
  rw [UInt32.toNat_sub] at h
  omega

theorem ProtectionState.place_laid (I : KernelImage L) (s : ProtectionState) (m : Memory) :
    s.Laid I (s.place I m) := by
  have hapart := List.pairwise_iff_getElem.1 I.apart
  have hbelow := L.below_user
  have hg := I.placed (I.gdt.toNat, 48) (by simp)
  have ht := I.placed (I.tss.toNat, 104) (by simp)
  have hi := I.placed (I.idt.toNat, 2048) (by simp)
  have h₁ : I.gdt.toNat + 48 ≤ I.tss.toNat ∨ I.tss.toNat + 104 ≤ I.gdt.toNat :=
    hapart 0 1 (by simp) (by simp) (by decide)
  have h₂ : I.gdt.toNat + 48 ≤ I.idt.toNat ∨ I.idt.toNat + 2048 ≤ I.gdt.toNat :=
    hapart 0 2 (by simp) (by simp) (by decide)
  have h₃ : I.tss.toNat + 104 ≤ I.idt.toNat ∨ I.idt.toNat + 2048 ≤ I.tss.toNat :=
    hapart 1 2 (by simp) (by simp) (by decide)
  refine ⟨holdsWords_wordsMemory _ _ _ (by decide), ?_, ?_⟩
  · refine (holdsWords_wordsMemory I.tss s.tss.word (wordsMemory I.idt 512
      (descriptorWords fun i => (s.idt (.ofNat i)).descriptor) m) (by decide)).congr (by decide)
      fun a ha => ?_
    have hin := range_of_sub (by omega) ha
    exact wordsMemory_of_range _ _ (by omega) (by omega)
  · refine (holdsWords_wordsMemory I.idt _ m (by decide)).congr (by decide) fun a ha => ?_
    have hin := range_of_sub (by omega) ha
    refine (wordsMemory_of_range _ _ (by omega) (by omega)).trans ?_
    exact wordsMemory_of_range _ _ (by omega) (by omega)

end Booted

theorem ProtectionState.place_tableByte (I : KernelImage L) (s : ProtectionState) (m : Memory)
    {a : UInt32} (ha : TableByte L a.toNat) : s.place I m a = m a := by
  have hapart := List.pairwise_iff_getElem.1 I.apart
  have hbelow := L.below_user
  have hg := I.placed (I.gdt.toNat, 48) (by simp)
  have ht := I.placed (I.tss.toNat, 104) (by simp)
  have hi := I.placed (I.idt.toNat, 2048) (by simp)
  have h₁ : I.gdt.toNat + 48 ≤ L.gPageDirectory ∨ L.gPageDirectory + 4096 ≤ I.gdt.toNat :=
    hapart 0 5 (by simp) (by simp) (by decide)
  have h₂ : I.gdt.toNat + 48 ≤ L.gPageTables ∨ L.gPageTables + 131072 ≤ I.gdt.toNat :=
    hapart 0 6 (by simp) (by simp) (by decide)
  have h₃ : I.tss.toNat + 104 ≤ L.gPageDirectory ∨ L.gPageDirectory + 4096 ≤ I.tss.toNat :=
    hapart 1 5 (by simp) (by simp) (by decide)
  have h₄ : I.tss.toNat + 104 ≤ L.gPageTables ∨ L.gPageTables + 131072 ≤ I.tss.toNat :=
    hapart 1 6 (by simp) (by simp) (by decide)
  have h₅ : I.idt.toNat + 2048 ≤ L.gPageDirectory ∨ L.gPageDirectory + 4096 ≤ I.idt.toNat :=
    hapart 2 5 (by simp) (by simp) (by decide)
  have h₆ : I.idt.toNat + 2048 ≤ L.gPageTables ∨ L.gPageTables + 131072 ≤ I.idt.toNat :=
    hapart 2 6 (by simp) (by simp) (by decide)
  rw [TableByte] at ha
  refine (wordsMemory_of_range _ _ (by omega) (by omega)).trans ?_
  refine (wordsMemory_of_range _ _ (by omega) (by omega)).trans ?_
  exact wordsMemory_of_range _ _ (by omega) (by omega)

/-- A kernel image with its tables behind the page tables. -/
def KernelImage.sample : KernelImage Layout.sample where
  gdt := 0x00230000
  tss := 0x00230100
  idt := 0x00230800
  gUserKernelEsp := 0x00231000
  stackBottom := 0x00232000
  stub := fun stub => 0x00100000 + 64 * .ofNat stub.vector
  placed := by decide
  apart := by decide

/-- What is in the tables before the kernel sets them up. -/
def ProtectionState.blank : ProtectionState where
  gdt := fun _ => ⟨0, 0, 0, 0, 0, 0⟩
  gp := ⟨0, 0⟩
  tss := ⟨0, 0, 0, fun _ => 0, 0, 0⟩
  idt := fun _ => ⟨0, 0, 0, 0, 0⟩
  idtPtr := ⟨0, 0⟩
  tables := ⟨⟨0, 0⟩, ⟨0, 0⟩, ⟨0, 0, 0⟩⟩
  seg := fun _ => 0

/-- The sample program with the tables of a kernel in its memory. -/
def protectedProgram : State :=
  { sampleProgram with
    mem := (booted KernelImage.sample .blank 0x00235F00).place KernelImage.sample fun _ => 0 }

/-- A breakpoint of a program is a general protection fault, and stops the machine. -/
theorem breakpoint_is_protection_fault :
    (booted KernelImage.sample .blank 0x00235F00).tables.take .zeroExtending protectedProgram 2
        (.software 3) =
      some (KernelImage.sample.stubEntry .zeroExtending 0x00235F00 protectedProgram
        (.exception .gp) (some 26)) :=
  (events_reach_stubs .zeroExtending
    ((booted KernelImage.sample .blank 0x00235F00).place_laid KernelImage.sample fun _ => 0)
    (.software 3) 0).1

end KernelCustom
