import KernelCustom.KeyWait
import KernelCustom.MemoryInit

namespace KernelCustom
open Word32 ByteStore CString
set_option autoImplicit true

def sysWrite : UInt32 := 1
def sysClear : UInt32 := 2

/-- `struct syscall_regs`, from the top of the stack down. -/
structure SyscallRegs where
  es : UInt32
  ds : UInt32
  edi : UInt32
  esi : UInt32
  ebp : UInt32
  espDummy : UInt32
  ebx : UInt32
  edx : UInt32
  ecx : UInt32
  eax : UInt32
  eip : UInt32
  cs : UInt32
  eflags : UInt32
  userEsp : UInt32
  userSs : UInt32
  deriving DecidableEq

/-- A byte that the handler reads or stores through a pointer of the caller. -/
inductive UserAccess where
  | load (address : Nat)
  | store (address : Nat)
  deriving DecidableEq

def UserAccess.address : UserAccess → Nat
  | load a => a
  | store a => a

/-- What goes to the serial port and to the screen. -/
inductive Output where
  | serialPutc (c : UInt8)
  | vgaPutc (c : UInt8)
  | clearScreen
  deriving DecidableEq

/-- The state of a system call: the keys are what the coming calls of `keyboard_buffer_pop`
return. -/
structure SyscallState where
  mem : Mem
  keys : List UInt8
  output : List Output
  accesses : List UserAccess

/-- How a system call ends: with the saved registers, in `task_exit`, at a `hlt` that waits for a
key, or in a loop over a string without an end. -/
inductive SyscallEnd where
  | ret (regs : SyscallRegs)
  | exit (status : UInt32)
  | waiting
  | endless
  deriving DecidableEq

structure SyscallResult where
  finish : SyscallEnd
  state : SyscallState

def SyscallState.load (s : SyscallState) (a : Nat) : SyscallState :=
  { s with accesses := s.accesses ++ [.load a] }

def SyscallState.store (s : SyscallState) (a : Nat) (c : UInt8) : SyscallState :=
  { s with mem := Function.update s.mem a c, accesses := s.accesses ++ [.store a] }

def SyscallState.emit (s : SyscallState) (o : List Output) : SyscallState :=
  { s with output := s.output ++ o }

/-- The loop of `serial_puts`, `vga_puts` and `strlen` over a string of the caller, with the length
it finds. After `2 ^ 32` bytes the pointer is back at its start. -/
def scanString (out : UInt8 → List Output) : Nat → Nat → SyscallState → Option Nat × SyscallState
  | 0, _, s => (none, s)
  | fuel + 1, a, s =>
    let c := s.mem a
    let s := s.load a
    if c = 0 then (some 0, s)
    else
      let r := scanString out fuel (wrap (a + 1)) (s.emit (out c))
      (r.1.map (· + 1), r.2)

def scanUserString (out : UInt8 → List Output) (str : UInt32) (s : SyscallState) :
    Option Nat × SyscallState :=
  scanString out 4294967296 str.toNat s

/-- The first form of `SYS_WRITE`: `ebx` points to a string. -/
def sysWriteString (regs : SyscallRegs) (s : SyscallState) : SyscallResult :=
  if regs.ebx ≠ 0 then
    let puts := scanUserString (fun c => [.serialPutc c]) regs.ebx s
    if puts.1 = none then ⟨.endless, puts.2⟩
    else
      let puts := scanUserString (fun c => [.vgaPutc c]) regs.ebx puts.2
      let strlen := scanUserString (fun _ => []) regs.ebx puts.2
      ⟨.ret { regs with eax := .ofNat (strlen.1.getD 0) }, strlen.2⟩
  else ⟨.ret { regs with eax := 0 }, s⟩

/-- The bytes `buf[i]`, `buf[i + 1]`, … of the second form. Each is read for each device. -/
def writeBytes (buf : UInt32) (i : Nat) (s : SyscallState) : Nat → SyscallState
  | 0 => s
  | n + 1 =>
    let a := wrap (buf.toNat + i)
    let s := (s.load a).emit [.serialPutc (s.mem a)]
    let s := (s.load a).emit [.vgaPutc (s.mem a)]
    writeBytes buf (i + 1) s n

def sysWriteFd (regs : SyscallRegs) (s : SyscallState) : SyscallResult :=
  if regs.ebx ≠ 1 ∧ regs.ebx ≠ 2 then ⟨.ret { regs with eax := 0xFFFFFFFF }, s⟩
  else ⟨.ret { regs with eax := regs.edx }, writeBytes regs.ecx 0 s regs.edx.toNat⟩

/-- The loop of `SYS_READ_RAW`; a 0 stands for an empty buffer. -/
def readRawKeys (regs : SyscallRegs) (s : SyscallState) : List UInt8 → SyscallResult
  | [] => ⟨.waiting, { s with keys := [] }⟩
  | c :: keys =>
    if c = 0 then readRawKeys regs s keys
    else ⟨.ret { regs with eax := c.toUInt32 }, { s with keys }⟩

/-- The loop of `SYS_READ`, with `count` bytes stored. -/
def readKeys (regs : SyscallRegs) (count : UInt32) (s : SyscallState) :
    List UInt8 → SyscallResult
  | [] =>
    ⟨if count < regs.edx then .waiting else .ret { regs with eax := count }, { s with keys := [] }⟩
  | c :: keys =>
    if count < regs.edx then
      if c = 0 then readKeys regs count s keys
      else
        let s := s.store (wrap (regs.ecx.toNat + count.toNat)) c
        if c = 10 then ⟨.ret { regs with eax := count + 1 }, { s with keys }⟩
        else readKeys regs (count + 1) s keys
    else ⟨.ret { regs with eax := count }, { s with keys := c :: keys }⟩

/-- The text of `dbg_kv`. -/
def dbgKv (scope key : String) (value : UInt32) : List UInt8 :=
  ascii "[" ++ ascii scope ++ ascii "] " ++ ascii key ++ ascii "=" ++ hexText value.toNat ++
    ascii "\n"

/-- `c_syscall_handler`, with the bytes it reaches through pointers of the caller. -/
def cSyscallHandler (regs : SyscallRegs) (mem : Mem) (keys : List UInt8) : SyscallResult :=
  let s : SyscallState := ⟨mem, keys, [], []⟩
  if regs.eax = sysWrite then
    if regs.ecx = 0 ∧ regs.edx = 0 then sysWriteString regs s else sysWriteFd regs s
  else if regs.eax = sysClear then ⟨.ret { regs with eax := 0 }, s.emit [.clearScreen]⟩
  else if regs.eax = sysExit then ⟨.exit regs.ebx, s⟩
  else if regs.eax = sysReadRaw then readRawKeys regs s keys
  else if regs.eax = sysRead then readKeys regs 0 s keys
  else ⟨.ret { regs with eax := 0xFFFFFFFF },
    s.emit ((dbgKv "syscall" "unknown" regs.eax).map .serialPutc)⟩

@[simp] theorem SyscallState.load_mem (s : SyscallState) (a : Nat) : (s.load a).mem = s.mem := rfl

@[simp] theorem SyscallState.emit_mem (s : SyscallState) (o : List Output) :
    (s.emit o).mem = s.mem := rfl

@[simp] theorem SyscallState.load_accesses (s : SyscallState) (a : Nat) :
    (s.load a).accesses = s.accesses ++ [.load a] := rfl

@[simp] theorem SyscallState.store_accesses (s : SyscallState) (a : Nat) (c : UInt8) :
    (s.store a c).accesses = s.accesses ++ [.store a] := rfl

@[simp] theorem SyscallState.emit_accesses (s : SyscallState) (o : List Output) :
    (s.emit o).accesses = s.accesses := rfl

@[simp] theorem scanString_mem (out : UInt8 → List Output) (fuel a : Nat) (s : SyscallState) :
    (scanString out fuel a s).2.mem = s.mem := by
  induction fuel generalizing a s with
  | zero => rfl
  | succ fuel ih =>
    simp only [scanString]
    split
    · rfl
    · exact ih _ _

/-- A byte of a string is read when the bytes before it are not NUL. -/
theorem scanString_accesses (out : UInt8 → List Output) (fuel : Nat) (ha : a < 4294967296)
    (s : SyscallState) :
    x ∈ (scanString out fuel a s).2.accesses ↔
      x ∈ s.accesses ∨ ∃ i, i < fuel ∧ x = .load (wrap (a + i)) ∧
        ∀ j, j < i → s.mem (wrap (a + j)) ≠ 0 := by
  induction fuel generalizing a s with
  | zero => simp [scanString]
  | succ fuel ih =>
    have hshift : ∀ i, wrap (wrap (a + 1) + i) = wrap (a + (i + 1)) := by
      intro i
      rw [wrap_wrap_add, Nat.add_assoc, Nat.add_comm 1]
    have hstart : wrap (a + 0) = a := wrap_of_lt ha
    simp only [scanString]
    by_cases hc : s.mem a = 0
    · rw [if_pos hc]
      simp only [SyscallState.load_accesses, List.mem_append, List.mem_singleton]
      refine or_congr_right ⟨?_, ?_⟩
      · rintro rfl
        exact ⟨0, Nat.succ_pos _, by rw [hstart], fun j hj => by omega⟩
      · rintro ⟨i, -, rfl, hj⟩
        cases i with
        | zero => rw [hstart]
        | succ i =>
          have h₀ := hj 0 (Nat.succ_pos i)
          rw [hstart] at h₀
          exact absurd hc h₀
    · rw [if_neg hc, ih (wrap_lt _)]
      simp only [SyscallState.emit_accesses, SyscallState.load_accesses, SyscallState.emit_mem,
        SyscallState.load_mem, List.mem_append, List.mem_singleton, or_assoc, hshift]
      refine or_congr_right ⟨?_, ?_⟩
      · rintro (rfl | ⟨i, hi, rfl, hj⟩)
        · exact ⟨0, Nat.succ_pos _, by rw [hstart], fun j hj => by omega⟩
        · refine ⟨i + 1, Nat.succ_lt_succ hi, rfl, ?_⟩
          intro j hlt
          cases j with
          | zero =>
            rw [hstart]
            exact hc
          | succ j => exact hj j (by omega)
      · rintro ⟨i, hi, rfl, hj⟩
        cases i with
        | zero =>
          left
          rw [hstart]
        | succ i =>
          exact .inr ⟨i, by omega, rfl, fun j hlt => hj (j + 1) (by omega)⟩

/-- The bytes of a string in the address space, with the NUL. -/
def StringByte (mem : Mem) (a : Nat) (x : UserAccess) : Prop :=
  ∃ i, i < 4294967296 ∧ x = .load (wrap (a + i)) ∧ ∀ j, j < i → mem (wrap (a + j)) ≠ 0

@[simp] theorem scanUserString_mem (out : UInt8 → List Output) (str : UInt32)
    (s : SyscallState) : (scanUserString out str s).2.mem = s.mem := scanString_mem ..

theorem scanUserString_accesses (out : UInt8 → List Output) (str : UInt32) (s : SyscallState) :
    x ∈ (scanUserString out str s).2.accesses ↔
      x ∈ s.accesses ∨ StringByte s.mem str.toNat x :=
  scanString_accesses out _ str.toNat_lt s

theorem sysWriteString_accesses (regs : SyscallRegs) (s : SyscallState) :
    x ∈ (sysWriteString regs s).state.accesses ↔
      x ∈ s.accesses ∨ regs.ebx ≠ 0 ∧ StringByte s.mem regs.ebx.toNat x := by
  simp only [sysWriteString]
  by_cases h₀ : regs.ebx = 0
  · rw [if_neg (not_not.2 h₀)]
    exact (or_iff_left fun h => h.1 h₀).symm
  · rw [if_pos h₀, and_iff_right h₀]
    split
    · exact scanUserString_accesses _ _ _
    · -- the three loops read the same bytes
      simp only [scanUserString_accesses, scanUserString_mem, or_assoc, or_self]

theorem writeBytes_accesses (buf : UInt32) (i : Nat) (s : SyscallState) (n : Nat) :
    x ∈ (writeBytes buf i s n).accesses ↔
      x ∈ s.accesses ∨ ∃ j, i ≤ j ∧ j < i + n ∧ x = .load (wrap (buf.toNat + j)) := by
  induction n generalizing i s with
  | zero =>
    refine (or_iff_left ?_).symm
    rintro ⟨j, h₁, h₂, -⟩
    omega
  | succ n ih =>
    simp only [writeBytes]
    rw [ih]
    simp only [SyscallState.emit_accesses, SyscallState.load_accesses, List.mem_append,
      List.mem_singleton, or_assoc]
    refine or_congr_right ⟨?_, ?_⟩
    · rintro (rfl | rfl | ⟨j, h₁, h₂, rfl⟩)
      · exact ⟨i, Nat.le_refl i, by omega, rfl⟩
      · exact ⟨i, Nat.le_refl i, by omega, rfl⟩
      · exact ⟨j, by omega, by omega, rfl⟩
    · rintro ⟨j, h₁, h₂, rfl⟩
      by_cases hj : j = i
      · exact .inl (by rw [hj])
      · exact .inr (.inr ⟨j, by omega, by omega, rfl⟩)

/-- The keys up to the first newline, with the newline. A 0 is no key. -/
def lineKeys : List UInt8 → Nat
  | [] => 0
  | c :: keys => if c = 0 then lineKeys keys else if c = 10 then 1 else lineKeys keys + 1

/-- `SYS_READ` stores the keys of the line, as far as there is room. -/
theorem readKeys_accesses (regs : SyscallRegs) (count : UInt32) (s : SyscallState)
    (keys : List UInt8) (hc : count ≤ regs.edx) :
    x ∈ (readKeys regs count s keys).state.accesses ↔
      x ∈ s.accesses ∨ ∃ j, count.toNat ≤ j ∧
        j < min regs.edx.toNat (count.toNat + lineKeys keys) ∧
        x = .store (wrap (regs.ecx.toNat + j)) := by
  have hnone : ∀ {n m : Nat}, m ≤ n →
      ¬ ∃ j, n ≤ j ∧ j < m ∧ x = .store (wrap (regs.ecx.toNat + j)) := by
    rintro n m hm ⟨j, h₁, h₂, -⟩
    omega
  induction keys generalizing count s with
  | nil =>
    simp only [readKeys, lineKeys]
    exact (or_iff_left (hnone (Nat.min_le_right _ _))).symm
  | cons c keys ih =>
    simp only [readKeys, lineKeys]
    by_cases hlt : count < regs.edx
    · rw [if_pos hlt]
      have hlt' := UInt32.lt_iff_toNat_lt.1 hlt
      have hedx := regs.edx.toNat_lt
      have hsucc : (count + 1).toNat = count.toNat + 1 := by
        rw [UInt32.toNat_add]
        exact Nat.mod_eq_of_lt (by simp only [UInt32.toNat_one]; omega)
      by_cases h₀ : c = 0
      · rw [if_pos h₀, if_pos h₀]
        exact ih count s hc
      · rw [if_neg h₀, if_neg h₀]
        by_cases h₁ : c = 10
        · rw [if_pos h₁, if_pos h₁]
          simp only [SyscallState.store_accesses, List.mem_append, List.mem_singleton]
          refine or_congr_right ⟨?_, ?_⟩
          · rintro rfl
            exact ⟨count.toNat, Nat.le_refl _, by omega, rfl⟩
          · rintro ⟨j, hl, hu, rfl⟩
            have hj : j = count.toNat := by omega
            rw [hj]
        · have hle : count + 1 ≤ regs.edx := by
            rw [UInt32.le_iff_toNat_le]
            omega
          have hrest := ih (count + 1) (s.store (wrap (regs.ecx.toNat + count.toNat)) c) hle
          rw [if_neg h₁, if_neg h₁]
          refine hrest.trans ?_
          simp only [SyscallState.store_accesses, List.mem_append, List.mem_singleton, or_assoc,
            hsucc]
          refine or_congr_right ⟨?_, ?_⟩
          · rintro (rfl | ⟨j, hl, hu, rfl⟩)
            · exact ⟨count.toNat, Nat.le_refl _, by omega, rfl⟩
            · exact ⟨j, by omega, by omega, rfl⟩
          · rintro ⟨j, hl, hu, rfl⟩
            by_cases hj : j = count.toNat
            · exact .inl (by rw [hj])
            · exact .inr ⟨j, by omega, by omega, rfl⟩
    · rw [if_neg hlt]
      have hle : regs.edx.toNat ≤ count.toNat := by
        rw [UInt32.lt_iff_toNat_lt] at hlt
        omega
      exact (or_iff_left (hnone (Nat.le_trans (Nat.min_le_left _ _) hle))).symm

theorem readRawKeys_accesses (regs : SyscallRegs) (s : SyscallState) (keys : List UInt8) :
    (readRawKeys regs s keys).state.accesses = s.accesses := by
  induction keys with
  | nil => rfl
  | cons c keys ih =>
    simp only [readRawKeys]
    split
    · exact ih
    · rfl

theorem writeBytes_mem (buf : UInt32) (i : Nat) (s : SyscallState) (n : Nat) :
    (writeBytes buf i s n).mem = s.mem := by
  induction n generalizing i s with
  | zero => rfl
  | succ n ih =>
    simp only [writeBytes]
    rw [ih]
    rfl

theorem sysWriteString_mem (regs : SyscallRegs) (s : SyscallState) :
    (sysWriteString regs s).state.mem = s.mem := by
  simp only [sysWriteString]
  split
  · split
    · exact scanUserString_mem ..
    · simp only [scanUserString_mem]
  · rfl

theorem sysWriteFd_mem (regs : SyscallRegs) (s : SyscallState) :
    (sysWriteFd regs s).state.mem = s.mem := by
  simp only [sysWriteFd]
  split
  · rfl
  · exact writeBytes_mem ..

theorem readRawKeys_mem (regs : SyscallRegs) (s : SyscallState) (keys : List UInt8) :
    (readRawKeys regs s keys).state.mem = s.mem := by
  induction keys with
  | nil => rfl
  | cons c keys ih =>
    simp only [readRawKeys]
    split
    · exact ih
    · rfl

/-- A byte that no store names keeps its value; the stores before the loop stay in the log. -/
theorem readKeys_mem (regs : SyscallRegs) (count : UInt32) (s : SyscallState) (keys : List UInt8)
    (ha : .store a ∉ (readKeys regs count s keys).state.accesses) :
    (readKeys regs count s keys).state.mem a = s.mem a ∧ .store a ∉ s.accesses := by
  induction keys generalizing count s with
  | nil => exact ⟨rfl, ha⟩
  | cons c keys ih =>
    simp only [readKeys] at ha ⊢
    split at ha
    · next hlt =>
      rw [if_pos hlt]
      split at ha
      · next h₀ =>
        rw [if_pos h₀]
        exact ih _ _ ha
      · next h₀ =>
        rw [if_neg h₀]
        generalize wrap (regs.ecx.toNat + count.toNat) = b at ha ⊢
        have hstore : ∀ {l : List UserAccess}, .store a ∉ l ++ [UserAccess.store b] →
            a ≠ b ∧ .store a ∉ l := by
          intro l hl
          rw [List.mem_append, not_or, List.mem_singleton] at hl
          exact ⟨fun h => hl.2 (h ▸ rfl), hl.1⟩
        split at ha
        · next h₁ =>
          rw [if_pos h₁]
          obtain ⟨hne, hs⟩ := hstore ha
          exact ⟨Function.update_of_ne hne _ _, hs⟩
        · next h₁ =>
          rw [if_neg h₁]
          obtain ⟨hm, hrest⟩ := ih _ _ ha
          obtain ⟨hne, hs⟩ := hstore hrest
          exact ⟨hm.trans (Function.update_of_ne hne _ _), hs⟩
    · next hlt =>
      rw [if_neg hlt]
      exact ⟨rfl, ha⟩

/-- A system call changes memory only where its log has a store. -/
theorem cSyscallHandler_mem (regs : SyscallRegs) (mem : Mem) (keys : List UInt8)
    (ha : .store a ∉ (cSyscallHandler regs mem keys).state.accesses) :
    (cSyscallHandler regs mem keys).state.mem a = mem a := by
  simp only [cSyscallHandler] at ha ⊢
  by_cases hw : regs.eax = sysWrite
  · rw [if_pos hw]
    split
    · rw [sysWriteString_mem]
    · rw [sysWriteFd_mem]
  · rw [if_neg hw] at ha ⊢
    split
    · rfl
    · next hc =>
      rw [if_neg hc] at ha
      split
      · rfl
      · next he =>
        rw [if_neg he] at ha
        split
        · rw [readRawKeys_mem]
        · next hr =>
          rw [if_neg hr] at ha
          split
          · next hrd =>
            rw [if_pos hrd] at ha
            exact (readKeys_mem _ _ _ _ ha).1
          · rfl

/-- The bytes from an address on lie in the program area or in the stack page. -/
def UserRange (a n : Nat) : Prop :=
  (userProgramBase ≤ a ∧ a + n ≤ userProgramBase + userProgramMaxSize) ∨
    (userStackTop - userStackSize ≤ a ∧ a + n ≤ userStackTop)

theorem userRange_iff (ha : a < 4294967296) (hn : 0 < n) :
    UserRange a n ↔ ∀ i, i < n → UserAddress (wrap (a + i)) := by
  simp only [UserRange, UserAddress, userProgramBase, userProgramMaxSize, userStackTop,
    userStackSize, wrap]
  constructor
  · rintro h i hi
    omega
  · intro h
    have h₀ := h 0 hn
    rcases h₀ with h₀ | h₀
    · have h₁ := h (0x00900000 - a)
      omega
    · have h₁ := h (0x00C00000 - a)
      omega

/-- A string that begins in user memory is read there when its NUL lies there too. -/
theorem userString_iff (mem : Mem) (ha : a < 4294967296) :
    (∃ n, mem (a + n) = 0 ∧ UserRange a (n + 1)) ↔
      ∀ i, i < 4294967296 → (∀ j, j < i → mem (wrap (a + j)) ≠ 0) → UserAddress (wrap (a + i)) := by
  constructor
  · rintro ⟨n, hnul, hr⟩ i - hi
    have hin := (userRange_iff ha (Nat.succ_pos n)).1 hr
    refine hin i (Nat.lt_succ_of_le (Nat.le_of_not_lt fun hlt => hi n hlt ?_))
    rwa [wrap_of_lt]
    simp only [UserRange, userProgramBase, userProgramMaxSize, userStackTop] at hr
    omega
  · intro h
    have h₀ := h 0 (by decide) fun j hj => absurd hj (Nat.not_lt_zero j)
    have hend : ∀ e, a < e → e ≤ 0x00C00000 → ¬ UserAddress e →
        ∃ n, mem (a + n) = 0 ∧ a + n < e := by
      intro e hae he hout
      by_contra hno
      push Not at hno
      refine hout ?_
      have hlast := h (e - a) (by omega) (fun j hj hz => by
        rw [wrap_of_lt (by omega)] at hz
        exact absurd (hno j hz) (by omega))
      rwa [Nat.add_sub_cancel' (Nat.le_of_lt hae), wrap_of_lt (by omega)] at hlast
    rw [Nat.add_zero, wrap_of_lt ha] at h₀
    simp only [UserAddress, UserRange, userProgramBase, userProgramMaxSize, userStackTop,
      userStackSize] at h₀ hend ⊢
    rcases h₀ with h₀ | h₀
    · obtain ⟨n, hn, hlt⟩ := hend 0x00900000 (by omega) (by omega) (by omega)
      exact ⟨n, hn, .inl (by omega)⟩
    · obtain ⟨n, hn, hlt⟩ := hend 0x00C00000 (by omega) (by omega) (by omega)
      exact ⟨n, hn, .inr (by omega)⟩

/-- The ranges that a system call is given, as far as it uses them, are user memory. -/
def SyscallRegs.Confined (regs : SyscallRegs) (mem : Mem) (keys : List UInt8) : Prop :=
  (regs.eax = sysWrite → regs.ecx = 0 ∧ regs.edx = 0 →
    regs.ebx = 0 ∨ ∃ n, mem (regs.ebx.toNat + n) = 0 ∧ UserRange regs.ebx.toNat (n + 1)) ∧
  (regs.eax = sysWrite → ¬ (regs.ecx = 0 ∧ regs.edx = 0) → regs.ebx = 1 ∨ regs.ebx = 2 →
    regs.edx = 0 ∨ UserRange regs.ecx.toNat regs.edx.toNat) ∧
  (regs.eax = sysRead → min regs.edx.toNat (lineKeys keys) = 0 ∨
    UserRange regs.ecx.toNat (min regs.edx.toNat (lineKeys keys)))

theorem sysWriteString_confined_iff (regs : SyscallRegs) (mem : Mem) (keys : List UInt8) :
    (∀ x ∈ (sysWriteString regs ⟨mem, keys, [], []⟩).state.accesses, UserAddress x.address) ↔
      (regs.ebx = 0 ∨
        ∃ n, mem (regs.ebx.toNat + n) = 0 ∧ UserRange regs.ebx.toNat (n + 1)) := by
  simp only [sysWriteString_accesses, List.not_mem_nil, false_or, StringByte]
  rw [or_iff_not_imp_left, userString_iff mem regs.ebx.toNat_lt]
  constructor
  · intro h h₀ i hi hj
    exact h _ ⟨h₀, i, hi, rfl, hj⟩
  · rintro h x ⟨h₀, i, hi, rfl, hj⟩
    exact h h₀ i hi hj

theorem sysWriteFd_confined_iff (regs : SyscallRegs) (mem : Mem) (keys : List UInt8) :
    (∀ x ∈ (sysWriteFd regs ⟨mem, keys, [], []⟩).state.accesses, UserAddress x.address) ↔
      (regs.ebx = 1 ∨ regs.ebx = 2 → regs.edx = 0 ∨ UserRange regs.ecx.toNat regs.edx.toNat) := by
  simp only [sysWriteFd]
  by_cases hfd : regs.ebx = 1 ∨ regs.ebx = 2
  · rw [if_neg (by rw [← not_or]; exact not_not.2 hfd), imp_iff_right hfd]
    simp only [writeBytes_accesses, List.not_mem_nil, false_or, Nat.zero_add]
    by_cases h₀ : regs.edx = 0
    · refine iff_of_true ?_ (.inl h₀)
      rintro x ⟨j, -, hj, -⟩
      rw [h₀] at hj
      exact absurd hj (Nat.not_lt_zero j)
    · have hpos : 0 < regs.edx.toNat := Nat.pos_of_ne_zero fun hz => h₀ (UInt32.toNat_inj.1 hz)
      rw [or_iff_right h₀, userRange_iff regs.ecx.toNat_lt hpos]
      constructor
      · intro h i hi
        exact h _ ⟨i, Nat.zero_le i, hi, rfl⟩
      · rintro h x ⟨i, -, hi, rfl⟩
        exact h i hi
  · rw [if_pos (not_or.1 hfd)]
    exact iff_of_true (List.forall_mem_nil _) fun h => absurd h hfd

theorem readKeys_confined_iff (regs : SyscallRegs) (mem : Mem) (keys : List UInt8) :
    (∀ x ∈ (readKeys regs 0 ⟨mem, keys, [], []⟩ keys).state.accesses, UserAddress x.address) ↔
      (min regs.edx.toNat (lineKeys keys) = 0 ∨
        UserRange regs.ecx.toNat (min regs.edx.toNat (lineKeys keys))) := by
  have hle : (0 : UInt32) ≤ regs.edx := UInt32.le_iff_toNat_le.2 (Nat.zero_le _)
  simp only [readKeys_accesses _ _ _ _ hle, List.not_mem_nil, false_or, UInt32.toNat_zero,
    Nat.zero_add, Nat.zero_le, true_and]
  generalize min regs.edx.toNat (lineKeys keys) = n
  by_cases h₀ : n = 0
  · refine iff_of_true ?_ (.inl h₀)
    rintro x ⟨j, hj, -⟩
    omega
  · rw [or_iff_right h₀, userRange_iff regs.ecx.toNat_lt (Nat.pos_of_ne_zero h₀)]
    constructor
    · intro h i hi
      exact h _ ⟨i, hi, rfl⟩
    · rintro h x ⟨i, hi, rfl⟩
      exact h i hi

/-- A system call stays in the memory of user programs exactly when it is given ranges that lie
there. The handler itself does not look at them. -/
theorem syscall_confined_iff (regs : SyscallRegs) (mem : Mem) (keys : List UInt8) :
    (∀ x ∈ (cSyscallHandler regs mem keys).state.accesses, UserAddress x.address) ↔
      regs.Confined mem keys := by
  have hnone : ∀ {r : SyscallResult}, r.state.accesses = [] →
      regs.eax ≠ sysWrite → regs.eax ≠ sysRead →
      ((∀ x ∈ r.state.accesses, UserAddress x.address) ↔ regs.Confined mem keys) := by
    intro r hr hw hrd
    rw [hr]
    exact iff_of_true (List.forall_mem_nil _)
      ⟨fun h => absurd h hw, fun h => absurd h hw, fun h => absurd h hrd⟩
  simp only [cSyscallHandler]
  by_cases hw : regs.eax = sysWrite
  · have hrd : regs.eax ≠ sysRead := by
      rw [hw]
      decide
    rw [if_pos hw]
    by_cases hform : regs.ecx = 0 ∧ regs.edx = 0
    · rw [if_pos hform, sysWriteString_confined_iff]
      exact ⟨fun h => ⟨fun _ _ => h, fun _ hn => absurd hform hn, fun h => absurd h hrd⟩,
        fun h => h.1 hw hform⟩
    · rw [if_neg hform, sysWriteFd_confined_iff]
      exact ⟨fun h => ⟨fun _ hn => absurd hn hform, fun _ _ => h, fun h => absurd h hrd⟩,
        fun h => h.2.1 hw hform⟩
  · rw [if_neg hw]
    by_cases hrd : regs.eax = sysRead
    · have hne : sysRead ≠ sysClear ∧ sysRead ≠ sysExit ∧ sysRead ≠ sysReadRaw := by decide
      rw [if_neg (hrd ▸ hne.1), if_neg (hrd ▸ hne.2.1), if_neg (hrd ▸ hne.2.2), if_pos hrd,
        readKeys_confined_iff]
      exact ⟨fun h => ⟨fun h => absurd h hw, fun h => absurd h hw, fun _ => h⟩,
        fun h => h.2.2 hrd⟩
    · refine hnone ?_ hw hrd
      rw [if_neg hrd]
      split
      · rfl
      · split
        · rfl
        · split
          · exact readRawKeys_accesses ..
          · rfl

/-- A system call that stays in user memory leaves the memory of the kernel as it was. -/
theorem kernel_memory_unchanged
    (h : ∀ x ∈ (cSyscallHandler regs mem keys).state.accesses, UserAddress x.address)
    (ha : ¬ UserAddress a) : (cSyscallHandler regs mem keys).state.mem a = mem a :=
  cSyscallHandler_mem regs mem keys fun hstore => ha (h _ hstore)

/-- A program reads a key into the kernel. -/
theorem syscall_read_into_kernel :
    ¬ ∀ (regs : SyscallRegs) (mem : Mem) (keys : List UInt8),
      ∀ x ∈ (cSyscallHandler regs mem keys).state.accesses, UserAddress x.address := by
  intro h
  have hx : UserAccess.store 0x00100000 ∈
      (cSyscallHandler ⟨0, 0, 0, 0, 0, 0, 0, 1, 0x00100000, sysRead, 0, 0, 0, 0, 0⟩ (fun _ => 0)
        [0x41]).state.accesses := by decide
  have hu := h _ _ _ _ hx
  simp only [UserAccess.address, UserAddress, userProgramBase, userStackTop, userStackSize] at hu
  omega

/-! The wrapper of `syscall.h` and the shell's use of it. -/

/-- `sys_write`: `int 0x80`, with the other registers as they are. -/
def UserShell.sysWrite (regs : SyscallRegs) (fd buf len : UInt32) (mem : Mem) (keys : List UInt8) :
    SyscallResult :=
  cSyscallHandler
    { regs with eax := KernelCustom.sysWrite, ebx := fd, ecx := buf, edx := len } mem keys

/-- `sys_write_str` of the shell; nothing when its loop finds no NUL. -/
def UserShell.sysWriteStr (regs : SyscallRegs) (s : UInt32) (mem : Mem) (keys : List UInt8) :
    Option SyscallResult :=
  (scanUserString (fun _ => []) s ⟨mem, keys, [], []⟩).1.map fun len =>
    UserShell.sysWrite regs 0 s (.ofNat len) mem keys

/-- The bytes that `serial_putc` was called with. -/
def serialOutput (output : List Output) : List UInt8 :=
  output.filterMap fun o => match o with
    | .serialPutc c => some c
    | _ => none

/-- The bytes that `vga_putc` was called with. -/
def vgaOutput (output : List Output) : List UInt8 :=
  output.filterMap fun o => match o with
    | .vgaPutc c => some c
    | _ => none

/-- A call emits the bytes of a string and returns its length. -/
def SyscallResult.Writes (r : SyscallResult) (t : Text) : Prop :=
  serialOutput r.state.output = t.chars ∧ vgaOutput r.state.output = t.chars ∧
    ∃ regs, r.finish = .ret regs ∧ regs.eax = .ofNat (strlen t)

/-- A string with its NUL in the memory of user programs. -/
def UserString (mem : Mem) (a : Nat) (t : Text) : Prop :=
  bytesAt mem a t.chars.length = t.chars ∧ mem (a + t.chars.length) = 0 ∧
    UserRange a (t.chars.length + 1)

/-- The file descriptor 0 is refused, whatever is to be written. -/
theorem sysWrite_fd_zero (regs : SyscallRegs) (buf len : UInt32) (mem : Mem) (keys : List UInt8)
    (hbuf : buf ≠ 0) :
    UserShell.sysWrite regs 0 buf len mem keys =
      ⟨.ret { regs with eax := 0xFFFFFFFF, ebx := 0, ecx := buf, edx := len },
        ⟨mem, keys, [], []⟩⟩ := by
  have hfd : (0 : UInt32) ≠ 1 ∧ (0 : UInt32) ≠ 2 := by decide
  simp only [UserShell.sysWrite, cSyscallHandler]
  rw [if_pos trivial, if_neg fun h => hbuf h.1, sysWriteFd, if_pos hfd]

theorem scanString_length (out : UInt8 → List Output) (ha : a < 4294967296) (s : SyscallState)
    (hn : n < fuel) (hnul : s.mem (wrap (a + n)) = 0)
    (hchars : ∀ j, j < n → s.mem (wrap (a + j)) ≠ 0) :
    (scanString out fuel a s).1 = some n := by
  induction fuel generalizing a n s with
  | zero => omega
  | succ fuel ih =>
    have hshift : ∀ i, wrap (wrap (a + 1) + i) = wrap (a + (i + 1)) := by
      intro i
      rw [wrap_wrap_add, Nat.add_assoc, Nat.add_comm 1]
    have hstart : wrap (a + 0) = a := wrap_of_lt ha
    simp only [scanString]
    cases n with
    | zero =>
      rw [hstart] at hnul
      rw [if_pos hnul]
    | succ n =>
      have h₀ := hchars 0 (Nat.succ_pos n)
      rw [hstart] at h₀
      rw [if_neg h₀, ih (wrap_lt _) _ (Nat.lt_of_succ_lt_succ hn)]
      · rfl
      · rw [hshift]
        exact hnul
      · intro j hj
        rw [hshift]
        exact hchars (j + 1) (Nat.succ_lt_succ hj)

theorem getElem_bytesAt (mem : Mem) (a : Nat) (hi : i < (bytesAt mem a n).length) :
    (bytesAt mem a n)[i] = mem (a + i) := by
  induction n generalizing a i with
  | zero => exact absurd hi (Nat.not_lt_zero i)
  | succ n ih =>
    cases i with
    | zero => rfl
    | succ i =>
      simp only [bytesAt, List.getElem_cons_succ]
      rw [ih, Nat.add_right_comm, Nat.add_assoc]

/-- The loop of `sys_write_str` finds the length of a string in user memory. -/
theorem UserString.length (h : UserString mem a t) :
    (scanString out 4294967296 a ⟨mem, keys, [], []⟩).1 = some t.chars.length := by
  obtain ⟨hchars, hnul, hrange⟩ := h
  simp only [UserRange, userProgramBase, userProgramMaxSize, userStackTop] at hrange
  refine scanString_length out (by omega) _ (by omega) ?_ ?_
  · rw [wrap_of_lt (by omega)]
    exact hnul
  · intro j hj hz
    have hlen : j < (bytesAt mem a t.chars.length).length := by rwa [length_bytesAt]
    change mem (wrap (a + j)) = 0 at hz
    rw [wrap_of_lt (by omega), ← getElem_bytesAt mem a hlen] at hz
    have hmem := List.getElem_mem hlen
    rw [hz] at hmem
    exact t.no_nul (hchars ▸ hmem)

/-- A string that the shell writes never reaches the console: the shell passes the descriptor 0,
and the kernel takes 1 and 2. -/
theorem sys_write_str_writes_nothing (regs : SyscallRegs) (s : UInt32) (mem : Mem)
    (keys : List UInt8) (t : Text) (hne : t.chars ≠ []) (hs : UserString mem s.toNat t) :
    ∃ r, UserShell.sysWriteStr regs s mem keys = some r ∧ r.state.output = [] ∧ ¬ r.Writes t := by
  have hbuf : s ≠ 0 := by
    rintro rfl
    have hrange := hs.2.2
    simp only [UserRange, userProgramBase, userStackTop, userStackSize, UInt32.toNat_zero] at hrange
    omega
  have hcall : UserShell.sysWriteStr regs s mem keys =
      some (UserShell.sysWrite regs 0 s (.ofNat t.chars.length) mem keys) := by
    rw [UserShell.sysWriteStr, scanUserString, hs.length, Option.map_some]
  rw [sysWrite_fd_zero regs s _ mem keys hbuf] at hcall
  refine ⟨_, hcall, rfl, ?_⟩
  rintro ⟨hout, -⟩
  exact hne hout.symm

/-- The prompt of the shell in a memory that holds nothing else. -/
def promptMemory : Mem := fun a =>
  if a < 0x00800000 then 0 else (ascii "$ ").getD (a - 0x00800000) 0

theorem promptMemory_string : UserString promptMemory 0x00800000 ⟨ascii "$ ", by decide⟩ :=
  ⟨by decide, by decide, .inl (by decide)⟩

theorem sys_write_str_loses_prompt :
    ¬ ∀ (regs : SyscallRegs) (s : UInt32) (mem : Mem) (keys : List UInt8) (t : Text),
      t.chars ≠ [] → UserString mem s.toNat t →
        ∃ r, UserShell.sysWriteStr regs s mem keys = some r ∧ r.Writes t := by
  intro h
  have hs : UserString promptMemory (0x00800000 : UInt32).toNat ⟨ascii "$ ", by decide⟩ :=
    promptMemory_string
  obtain ⟨r, hr, hout, -⟩ :=
    h ⟨0, 0, 0, 0, 0, 0, 0, 0, 0, 0, 0, 0, 0, 0, 0⟩ 0x00800000 promptMemory [] _ (by decide) hs
  rw [UserShell.sysWriteStr, scanUserString, hs.length, Option.map_some, Option.some.injEq,
    sysWrite_fd_zero _ _ _ _ _ (by decide)] at hr
  rw [← hr] at hout
  exact absurd hout (by decide)

theorem sys_write_str_writes_no_prompt :
    ∃ r, UserShell.sysWriteStr ⟨0, 0, 0, 0, 0, 0, 0, 0, 0, 0, 0, 0, 0, 0, 0⟩ 0x00800000
        promptMemory [] = some r ∧
      r.state.output = [] ∧ ¬ r.Writes ⟨ascii "$ ", by decide⟩ :=
  sys_write_str_writes_nothing _ _ _ _ _ (by decide) promptMemory_string

end KernelCustom
