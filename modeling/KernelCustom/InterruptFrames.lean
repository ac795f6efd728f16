import KernelCustom.InterruptStubs
import KernelCustom.SystemCalls

namespace KernelCustom
open X86
set_option autoImplicit true

/-- How `ISR_NOERR` and `ISR_ERR` begin, up to their call. -/
def isrEntry (vector : UInt32) : List Instr :=
  [.cli, .pusha, .pushSeg .ds, .pushSeg .es, .pushSeg .fs, .pushSeg .gs,
    .movAx 0x10, .movSegAx .ds, .movSegAx .es, .movSegAx .fs, .movSegAx .gs,
    .pushEsp, .pushImm vector]

/-- How they go on behind it. -/
def isrExit : List Instr :=
  [.addEsp 8, .popSeg .gs, .popSeg .fs, .popSeg .es, .popSeg .ds, .popa]

/-- `ISR_NOERR`. -/
def isrNoerr (vector : UInt32) (genericExceptionHandler : State → State) : List Instr :=
  isrEntry vector ++ .call genericExceptionHandler :: (isrExit ++ [.iret])

/-- `ISR_ERR`. -/
def isrErr (vector : UInt32) (genericExceptionHandler : State → State) : List Instr :=
  isrEntry vector ++ .call genericExceptionHandler :: (isrExit ++ [.addEsp 4, .iret])

/-- The exceptions that have a stub of these. -/
inductive Isr where
  | de
  | nm
  | df
  | ts
  | np
  | ss
  | gp
  deriving DecidableEq

def Isr.vector : Isr → UInt32
  | de => 0
  | nm => 7
  | df => 8
  | ts => 10
  | np => 11
  | ss => 12
  | gp => 13

/-- The stubs `isr_0` to `isr_13`. -/
def Isr.code (f : State → State) : Isr → List Instr
  | de => isrNoerr 0 f
  | nm => isrNoerr 7 f
  | df => isrNoerr 8 f
  | ts => isrErr 10 f
  | np => isrErr 11 f
  | ss => isrErr 12 f
  | gp => isrErr 13 f

/-- The error code that the processor pushes. That of a double fault is always 0. -/
def Isr.errorCode (err : UInt32) : Isr → Option UInt32
  | de | nm => none
  | df => some 0
  | _ => some err

/-- The words that the processor pushes before an error code; the last two only when it comes from
an outer level. -/
structure CpuFrame where
  eip : UInt32
  cs : UInt32
  eflags : UInt32
  outer : Option (UInt32 × UInt32)

/-- The pushed words, from the top of the stack down. -/
def CpuFrame.words (F : CpuFrame) (errorCode : Option UInt32) : List UInt32 :=
  errorCode.toList ++ [F.eip, F.cs, F.eflags] ++
    match F.outer with
    | none => []
    | some (esp, ss) => [esp, ss]

def CpuFrame.enter (F : CpuFrame) (errorCode : Option UInt32) (s : State) : State :=
  (F.words errorCode).reverse.foldl State.push s

/-- What `regs` points to. -/
def SyscallRegs.read (m : Memory) (p : UInt32) : SyscallRegs where
  es := load m p
  ds := load m (p + 4)
  edi := load m (p + 8)
  esi := load m (p + 12)
  ebp := load m (p + 16)
  espDummy := load m (p + 20)
  ebx := load m (p + 24)
  edx := load m (p + 28)
  ecx := load m (p + 32)
  eax := load m (p + 36)
  eip := load m (p + 40)
  cs := load m (p + 44)
  eflags := load m (p + 48)
  userEsp := load m (p + 52)
  userSs := load m (p + 56)

/-- `struct page_fault_frame`. -/
structure PageFaultFrame where
  gs : UInt32
  fs : UInt32
  es : UInt32
  ds : UInt32
  edi : UInt32
  esi : UInt32
  ebp : UInt32
  origEsp : UInt32
  ebx : UInt32
  edx : UInt32
  ecx : UInt32
  eax : UInt32
  errorCode : UInt32
  eip : UInt32
  cs : UInt32
  eflags : UInt32
  userEsp : UInt32
  userSs : UInt32

/-- What `frame` points to. -/
def PageFaultFrame.read (m : Memory) (p : UInt32) : PageFaultFrame where
  gs := load m p
  fs := load m (p + 4)
  es := load m (p + 8)
  ds := load m (p + 12)
  edi := load m (p + 16)
  esi := load m (p + 20)
  ebp := load m (p + 24)
  origEsp := load m (p + 28)
  ebx := load m (p + 32)
  edx := load m (p + 36)
  ecx := load m (p + 40)
  eax := load m (p + 44)
  errorCode := load m (p + 48)
  eip := load m (p + 52)
  cs := load m (p + 56)
  eflags := load m (p + 60)
  userEsp := load m (p + 64)
  userSs := load m (p + 68)

def vgaText (s : String) : List Output := (ascii s).map .vgaPutc

def serialText (l : List UInt8) : List Output := l.map .serialPutc

/-- What `generic_exception_handler` takes from the stack, and what it prints of it. -/
structure ExceptionReport where
  eip : UInt32
  errorCode : UInt32
  output : List Output

def exceptionNames : List String :=
  ["#DE Divide Error", "", "", "", "", "", "", "", "#NM Device Not Available", "",
    "#DF Double Fault", "", "#TS Invalid TSS", "#NP Segment Not Present",
    "#SS Stack-Segment Fault", "#GP General Protection Fault", "#PF Page Fault"]

def genericExceptionHandler (m : Memory) (vector esp : UInt32) : ExceptionReport :=
  let eip := load m (esp + 52)
  let errorCode := if 10 ≤ vector ∧ vector ≤ 14 then load m (esp + 56) else 0
  let name := exceptionNames.getD vector.toNat "Unknown Exception"
  { eip, errorCode
    output :=
      vgaText "\n!!! KERNEL EXCEPTION !!!\n" ++ vgaText "Exception: " ++ vgaText name ++
      vgaText "\nVector: " ++ serialText (hexText vector.toNat) ++
      vgaText "\nEIP: " ++ serialText (hexText eip.toNat) ++ vgaText "\n" ++
      serialText (dbgKv "exception" "vector" vector) ++
      serialText (dbgKv "exception" "eip" eip) ++
      serialText (dbgKv "exception" "error" errorCode) }

/-- A C struct for system calls holds the registers of the state in which the stub began, and the
words that the processor had pushed. -/
structure SyscallRegs.Decodes (r : SyscallRegs) (e : State) (F : CpuFrame) : Prop where
  es : r.es.toUInt16 = e.seg .es
  ds : r.ds.toUInt16 = e.seg .ds
  edi : r.edi = e.reg .edi
  esi : r.esi = e.reg .esi
  ebp : r.ebp = e.reg .ebp
  espDummy : r.espDummy = e.reg .esp
  ebx : r.ebx = e.reg .ebx
  edx : r.edx = e.reg .edx
  ecx : r.ecx = e.reg .ecx
  eax : r.eax = e.reg .eax
  eip : r.eip = F.eip
  cs : r.cs = F.cs
  eflags : r.eflags = F.eflags
  outer : ∀ esp ss, F.outer = some (esp, ss) → r.userEsp = esp ∧ r.userSs = ss

structure PageFaultFrame.Decodes (r : PageFaultFrame) (e : State) (F : CpuFrame) (err : UInt32) :
    Prop where
  gs : r.gs.toUInt16 = e.seg .gs
  fs : r.fs.toUInt16 = e.seg .fs
  es : r.es.toUInt16 = e.seg .es
  ds : r.ds.toUInt16 = e.seg .ds
  edi : r.edi = e.reg .edi
  esi : r.esi = e.reg .esi
  ebp : r.ebp = e.reg .ebp
  origEsp : r.origEsp = e.reg .esp
  ebx : r.ebx = e.reg .ebx
  edx : r.edx = e.reg .edx
  ecx : r.ecx = e.reg .ecx
  eax : r.eax = e.reg .eax
  errorCode : r.errorCode = err
  eip : r.eip = F.eip
  cs : r.cs = F.cs
  eflags : r.eflags = F.eflags
  outer : ∀ esp ss, F.outer = some (esp, ss) → r.userEsp = esp ∧ r.userSs = ss

/-- The `eip` and, where there is one, the error code of an exception are those that the processor
pushed. -/
def ExceptionReport.Decodes (r : ExceptionReport) (F : CpuFrame) (errorCode : Option UInt32) :
    Prop :=
  r.eip = F.eip ∧ ∀ err, errorCode = some err → r.errorCode = err

theorem CpuFrame.words_length (F : CpuFrame) (errorCode : Option UInt32) :
    (F.words errorCode).length ≤ 6 := by
  obtain ⟨eip, cs, eflags, outer⟩ := F
  cases errorCode <;> cases outer <;> simp [words]

theorem CpuFrame.enter_holds (F : CpuFrame) (errorCode : Option UInt32) (s : State) :
    HoldsSlots (F.enter errorCode s).mem ((F.enter errorCode s).reg .esp)
      ((F.words errorCode).map .word) := by
  have hlen := F.words_length errorCode
  have h := (Agrees.nil s).pushList (F.words errorCode).reverse (by
    simp only [List.length_nil, List.length_reverse]
    omega)
  have hstack := h.stack
  rw [View.pushList_stack, List.reverse_reverse, List.append_nil, ← h.reg] at hstack
  exact hstack

/-- At the call in the stubs that pass one argument, it points to the saved registers. -/
theorem argument_holds (cpu : Cpu) (e : State) (segs data : List SegReg) (sel : UInt16)
    (he : HoldsSlots e.mem (e.reg .esp) F) (hF : F.length ≤ 6)
    (hsegs : segs.length + data.length < 100) :
    ∃ c, c = run cpu (.cli :: (saveCode segs data sel ++ [.pushEsp])) e ∧
      HoldsSlots c.mem c.top (savedSlots segs e.reg e.seg ++ F) ∧ c.top = c.reg .esp + 4 := by
  obtain ⟨v, hv, hstack, -, -⟩ := save_pushEsp cpu e segs data sel he hF hsegs
  have hholds := hv.stack
  rw [hstack, ← hv.reg] at hholds
  refine ⟨_, rfl, ?_, hholds.head⟩
  rw [State.top, show load _ _ = _ from hholds.head]
  exact hholds.tail

theorem SyscallRegs.read_decodes (F : CpuFrame)
    (h : HoldsSlots m p (savedSlots [.ds, .es] e.reg e.seg ++ (F.words none).map .word)) :
    (SyscallRegs.read m p).Decodes e F where
  es := h.head
  ds := h.fits 1 _ rfl
  edi := h.fits 2 _ rfl
  esi := h.fits 3 _ rfl
  ebp := h.fits 4 _ rfl
  espDummy := h.fits 5 _ rfl
  ebx := h.fits 6 _ rfl
  edx := h.fits 7 _ rfl
  ecx := h.fits 8 _ rfl
  eax := h.fits 9 _ rfl
  eip := h.fits 10 _ rfl
  cs := h.fits 11 _ rfl
  eflags := h.fits 12 _ rfl
  outer := by
    intro esp ss ho
    rw [CpuFrame.words, ho] at h
    exact ⟨h.fits 13 _ rfl, h.fits 14 _ rfl⟩

theorem PageFaultFrame.read_decodes (F : CpuFrame)
    (h : HoldsSlots m p (savedSlots [.ds, .es, .fs, .gs] e.reg e.seg ++
      (F.words (some err)).map .word)) :
    (PageFaultFrame.read m p).Decodes e F err where
  gs := h.head
  fs := h.fits 1 _ rfl
  es := h.fits 2 _ rfl
  ds := h.fits 3 _ rfl
  edi := h.fits 4 _ rfl
  esi := h.fits 5 _ rfl
  ebp := h.fits 6 _ rfl
  origEsp := h.fits 7 _ rfl
  ebx := h.fits 8 _ rfl
  edx := h.fits 9 _ rfl
  ecx := h.fits 10 _ rfl
  eax := h.fits 11 _ rfl
  errorCode := h.fits 12 _ rfl
  eip := h.fits 13 _ rfl
  cs := h.fits 14 _ rfl
  eflags := h.fits 15 _ rfl
  outer := by
    intro esp ss ho
    rw [CpuFrame.words, ho] at h
    exact ⟨h.fits 16 _ rfl, h.fits 17 _ rfl⟩

/-- The struct that `c_syscall_handler` is given. -/
def syscallRegsAtCall (cpu : Cpu) (f : State → State) (e : State) : SyscallRegs :=
  let c := atCall cpu (syscallHandlerAsm f) e
  SyscallRegs.read c.mem c.top

/-- The struct that `page_fault_handler` is given. -/
def pageFaultFrameAtCall (cpu : Cpu) (f : State → State) (e : State) : PageFaultFrame :=
  let c := atCall cpu (pageFaultHandlerAsm f) e
  PageFaultFrame.read c.mem c.top

/-- What `generic_exception_handler` makes of its two arguments. -/
def exceptionReport (cpu : Cpu) (i : Isr) (f : State → State) (e : State) : ExceptionReport :=
  let c := atCall cpu (i.code f) e
  genericExceptionHandler c.mem c.top (load c.mem (c.reg .esp + 4))

theorem syscallRegsAtCall_decodes (cpu : Cpu) (f : State → State) (F : CpuFrame) (s : State) :
    (syscallRegsAtCall cpu f (F.enter none s)).Decodes (F.enter none s) F := by
  obtain ⟨c, hc, hholds, -⟩ :=
    argument_holds cpu (F.enter none s) [.ds, .es] [.ds, .es] 0x10 (F.enter_holds none s)
      (by rw [List.length_map]; exact F.words_length none) (by decide)
  rw [hc] at hholds
  exact SyscallRegs.read_decodes F hholds

theorem pageFaultFrameAtCall_decodes (cpu : Cpu) (f : State → State) (F : CpuFrame) (err : UInt32)
    (s : State) :
    (pageFaultFrameAtCall cpu f (F.enter (some err) s)).Decodes (F.enter (some err) s) F err := by
  obtain ⟨c, hc, hholds, -⟩ :=
    argument_holds cpu (F.enter (some err) s) [.ds, .es, .fs, .gs] [.ds, .es, .fs, .gs] 0x10
      (F.enter_holds (some err) s) (by rw [List.length_map]; exact F.words_length _) (by decide)
  rw [hc] at hholds
  exact PageFaultFrame.read_decodes F hholds

/-- `generic_exception_handler` gets the vector and a pointer to the saved registers, with the frame
behind them. -/
theorem exceptionCall_frame {ws : List UInt32} (cpu : Cpu) (i : Isr) (f : State → State) (e : State)
    (he : HoldsSlots e.mem (e.reg .esp) (ws.map .word)) (hws : ws.length ≤ 6) :
    (atCall cpu (i.code f) e).top = i.vector ∧
      HoldsSlots (atCall cpu (i.code f) e).mem
        (load (atCall cpu (i.code f) e).mem ((atCall cpu (i.code f) e).reg .esp + 4))
        (savedSlots [.ds, .es, .fs, .gs] e.reg e.seg ++ ws.map .word) := by
  obtain ⟨v, hv, hstack, -, -⟩ :=
    save_pushEsp cpu e [.ds, .es, .fs, .gs] [.ds, .es, .fs, .gs] 0x10 he
      (by rw [List.length_map]; exact hws) (by decide)
  have hlen : v.stack.length + 1 < 1073741824 := by
    rw [hstack, List.length_cons, List.length_append, savedSlots_length, List.length_map]
    change 12 + ws.length + 1 + 1 < _
    omega
  have hpush := hv.push (x := .word i.vector) hlen rfl
  have hc : atCall cpu (i.code f) e =
      (run cpu (.cli :: (saveCode [.ds, .es, .fs, .gs] [.ds, .es, .fs, .gs] 0x10 ++ [.pushEsp]))
        e).push i.vector := by
    cases i <;> rfl
  rw [← hc] at hpush
  have hholds := hpush.stack
  simp only [View.push, Function.update_self, hstack] at hholds
  have hesp : (atCall cpu (i.code f) e).reg .esp = v.reg .esp - 4 := by
    rw [hpush.reg]
    simp only [View.push, Function.update_self]
  have hptr : load (atCall cpu (i.code f) e).mem ((atCall cpu (i.code f) e).reg .esp + 4) =
      v.reg .esp + 4 := by
    rw [hesp]
    exact hholds.fits 1 _ rfl
  have hframe := hholds.drop 2
  rw [show v.reg .esp - 4 + 4 * UInt32.ofNat 2 = v.reg .esp + 4 by grind] at hframe
  refine ⟨?_, ?_⟩
  · rw [State.top, hesp]
    exact hholds.head
  · rw [hptr]
    exact hframe

/-- The handler of exceptions takes the words 13 and 14 above the saved registers. -/
theorem exceptionReport_words {ws : List UInt32} (cpu : Cpu) (i : Isr) (f : State → State)
    (e : State)
    (he : HoldsSlots e.mem (e.reg .esp) (ws.map .word)) (hws : ws.length ≤ 6) :
    (∀ w, ws[1]? = some w → (exceptionReport cpu i f e).eip = w) ∧
      ∀ w, ws[2]? = some w → (exceptionReport cpu i f e).errorCode =
        if 10 ≤ i.vector ∧ i.vector ≤ 14 then w else 0 := by
  obtain ⟨htop, hframe⟩ := exceptionCall_frame cpu i f e he hws
  have hat : ∀ j w, ws[j]? = some w → load (atCall cpu (i.code f) e).mem
      (load (atCall cpu (i.code f) e).mem ((atCall cpu (i.code f) e).reg .esp + 4) +
        4 * .ofNat (12 + j)) = w := by
    intro j w hw
    refine hframe.fits (12 + j) (.word w) ?_
    rw [List.getElem?_append_right (by rw [savedSlots_length]; exact Nat.le_add_right 12 j),
      savedSlots_length, List.getElem?_map]
    change (ws[12 + j - 12]?).map _ = _
    rw [Nat.add_sub_cancel_left, hw]
    rfl
  simp only [exceptionReport, genericExceptionHandler, htop]
  refine ⟨fun w hw => hat 1 w hw, fun w hw => ?_⟩
  have hword := hat 2 w hw
  split
  · exact hword
  · rfl

/-- When the stack of an exception is as its handler takes it to be. -/
def Isr.FrameFits (F : CpuFrame) (err : UInt32) : Isr → Prop
  | de | nm => F.eip = F.cs
  | df => True
  | _ => err = F.cs

/-- The structs for system calls and page faults are decoded as they were pushed. The handler of
exceptions reads `cs` where it expects `eip` or the error code, but for double faults. -/
theorem frames_decoded_iff (cpu : Cpu) (s : State) (F : CpuFrame) (err : UInt32) (i : Isr)
    (f : State → State) :
    ((syscallRegsAtCall cpu f (F.enter none s)).Decodes (F.enter none s) F ∧
      (pageFaultFrameAtCall cpu f (F.enter (some err) s)).Decodes (F.enter (some err) s) F err ∧
      (exceptionReport cpu i f (F.enter (i.errorCode err) s)).Decodes F (i.errorCode err)) ↔
      i.FrameFits F err := by
  rw [and_iff_right (syscallRegsAtCall_decodes cpu f F s),
    and_iff_right (pageFaultFrameAtCall_decodes cpu f F err s), ExceptionReport.Decodes]
  obtain ⟨heip, herr⟩ := exceptionReport_words cpu i f _ (F.enter_holds (i.errorCode err) s)
    (F.words_length _)
  cases i with
  | de | nm =>
    rw [heip F.cs rfl]
    exact ⟨fun h => h.1.symm, fun h => ⟨h.symm, fun e he => by cases he⟩⟩
  | df =>
    refine iff_of_true ⟨heip F.eip rfl, ?_⟩ trivial
    rintro e he
    cases he
    exact herr F.cs rfl
  | ts | np | ss | gp =>
    rw [herr F.cs rfl]
    exact ⟨fun h => (h.2 err rfl).symm, fun h => ⟨heip F.eip rfl, fun e he => by
      cases he
      exact h.symm⟩⟩

/-- For a general protection fault of a program, the handler takes its `cs` for the error code. -/
theorem general_protection_error_misread :
    ¬ ∀ (cpu : Cpu) (s : State) (F : CpuFrame) (err : UInt32) (i : Isr) (f : State → State),
      (syscallRegsAtCall cpu f (F.enter none s)).Decodes (F.enter none s) F ∧
      (pageFaultFrameAtCall cpu f (F.enter (some err) s)).Decodes (F.enter (some err) s) F err ∧
      (exceptionReport cpu i f (F.enter (i.errorCode err) s)).Decodes F (i.errorCode err) := by
  intro h
  obtain ⟨-, -, -, hreport⟩ := h .zeroExtending sampleProgram
    ⟨0x00800000, 0x1B, 0x202, some (0x00BFFFF0, 0x23)⟩ 0 .gp id
  obtain ⟨-, herr⟩ := exceptionReport_words .zeroExtending .gp id _
    (CpuFrame.enter_holds ⟨0x00800000, 0x1B, 0x202, some (0x00BFFFF0, 0x23)⟩ (some 0)
      sampleProgram) (CpuFrame.words_length _ _)
  have hcs : (0x1B : UInt32) = 0 := (herr 0x1B rfl).symm.trans (hreport 0 rfl)
  exact absurd hcs (by decide)

end KernelCustom
