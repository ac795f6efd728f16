import KernelCustom.ProtectionSetup
import KernelCustom.UserPages
import KernelCustom.PageMapping

namespace KernelCustom
open X86 Word32 ByteStore
set_option autoImplicit true

/-- `asm_switch_to_user`. -/
def asmSwitchToUser (cpu : Cpu) (I : KernelImage L) (x : State) : State :=
  let x := { x with mem := store x.mem I.gUserKernelEsp (x.reg .esp) }
  let x := x.setReg .ecx (load x.mem (x.reg .esp + 4))
  let x := x.setReg .edx (load x.mem (x.reg .esp + 8))
  let x := run cpu [.cli, .movAx 0x23, .movSegAx .ds, .movSegAx .es, .movSegAx .fs, .movSegAx .gs,
    .pushImm 0x23] x
  let x := x.push (x.reg .edx)
  let x := run cpu [.pushImm 0x202, .pushImm 0x1B] x
  (x.push (x.reg .ecx)).iret

/-- `run_user_program_at`. The compiler chooses the room for locals and the return address. -/
def runUserProgramAt (cpu : Cpu) (I : KernelImage L) (room returnAddress entryPoint : UInt32)
    (x : State) : State :=
  let currentKernelEsp := x.reg .esp
  let mem := store x.mem (I.tss + 4) currentKernelEsp
  let x := { x with mem := store mem I.gUserKernelEsp currentKernelEsp }
  let x := x.setReg .esp (x.reg .esp - room)
  let x := ((x.push (.ofNat userStackTop)).push entryPoint).push returnAddress
  asmSwitchToUser cpu I x

/-- `run_user_program_at`, up to its call. -/
def atSwitch (I : KernelImage L) (room returnAddress entryPoint : UInt32) (x : State) : State :=
  let x := { x with
    mem := store (store x.mem (I.tss + 4) (x.reg .esp)) I.gUserKernelEsp (x.reg .esp) }
  let x := x.setReg .esp (x.reg .esp - room)
  ((x.push (.ofNat userStackTop)).push entryPoint).push returnAddress

/-! The switch to a program. -/

/-- A program that has just been started. -/
structure Started (entryPoint stackTop : UInt32) (x : State) : Prop where
  eip : x.eip = entryPoint
  esp : x.reg .esp = stackTop
  eflags : x.eflags = 0x202
  cs : x.seg .cs = 0x1B
  segments : ∀ r, r ≠ .cs → x.seg r = 0x23

/-- The frame that `iret` takes leads to the outer level. -/
theorem iret_to_user {t : State}
    (h : HoldsSlots t.mem (t.reg .esp)
      [.word entryPoint, .word 0x1B, .word 0x202, .word stackTop, .word 0x23])
    (hcs : t.cpl = 0) (hseg : ∀ r, r ≠ .cs → r ≠ .ss → t.seg r = 0x23) :
    Started entryPoint stackTop t.iret := by
  have heip : load t.mem (t.reg .esp) = entryPoint := h.head
  have hcs' : load t.mem (t.reg .esp + 4) = 0x1B := h.fits 1 _ rfl
  have hflags : load t.mem (t.reg .esp + 8) = 0x202 := h.fits 2 _ rfl
  have hesp : load t.mem (t.reg .esp + 12) = stackTop := h.fits 3 _ rfl
  have hss : load t.mem (t.reg .esp + 16) = 0x23 := h.fits 4 _ rfl
  have hne : SegReg.ss ≠ SegReg.cs := SegReg.noConfusion
  have hlevel : level (t.seg .cs) < level ((0x1B : UInt32).toUInt16) := by
    rw [UInt16.lt_iff_toNat_lt, toNat_level, toNat_level]
    rw [show (t.seg .cs).toNat % 4 = 0 from hcs]
    decide
  rw [State.iret]
  simp only [hcs', hlevel, if_true]
  refine ⟨heip, ?_, hflags, ?_, ?_⟩
  · simp only [State.setReg, Function.update_self, hesp]
  · simp only [State.setReg, State.setSeg, Function.update_self, Function.update_of_ne hne.symm]
    rfl
  · intro r hr
    by_cases hr' : r = .ss
    · subst hr'
      simp only [State.setReg, State.setSeg, Function.update_self, hss]
      rfl
    · simp only [State.setReg, State.setSeg, Function.update_of_ne hr, Function.update_of_ne hr']
      exact hseg r hr hr'

/-- Before its `iret`. -/
def beforeIret (cpu : Cpu) (z : State) : State :=
  let z := run cpu [.cli, .movAx 0x23, .movSegAx .ds, .movSegAx .es, .movSegAx .fs, .movSegAx .gs,
    .pushImm 0x23] z
  let z := z.push (z.reg .edx)
  let z := run cpu [.pushImm 0x202, .pushImm 0x1B] z
  z.push (z.reg .ecx)

theorem beforeIret_stack (cpu : Cpu) (z : State) :
    HoldsSlots (beforeIret cpu z).mem ((beforeIret cpu z).reg .esp)
      [.word (z.reg .ecx), .word 0x1B, .word 0x202, .word (z.reg .edx), .word 0x23] := by
  have h₁ := (HoldsSlots.nil z.mem (z.reg .esp)).push (x := .word 0x23) (by decide) rfl
  have h₂ := h₁.push (x := .word (z.reg .edx)) (by simp) rfl
  have h₃ := h₂.push (x := .word 0x202) (by simp) rfl
  have h₄ := h₃.push (x := .word 0x1B) (by simp) rfl
  exact h₄.push (x := .word (z.reg .ecx)) (by simp) rfl

theorem beforeIret_seg (cpu : Cpu) (z : State) :
    (beforeIret cpu z).seg .cs = z.seg .cs ∧
      ∀ r, r ≠ .cs → r ≠ .ss → (beforeIret cpu z).seg r = 0x23 := by
  refine ⟨rfl, fun r hcs hss => ?_⟩
  cases r with
  | cs => exact absurd rfl hcs
  | ss => exact absurd rfl hss
  | ds | es | fs | gs => exact toUInt16_withLow16 (z.reg .eax) 0x23

theorem asmSwitchToUser_started (cpu : Cpu) (I : KernelImage L) (x : State) (hx : x.cpl = 0) :
    let m := store x.mem I.gUserKernelEsp (x.reg .esp)
    Started (load m (x.reg .esp + 4)) (load m (x.reg .esp + 8)) (asmSwitchToUser cpu I x) := by
  intro m
  let z := (({ x with mem := m } : State).setReg .ecx (load m (x.reg .esp + 4))).setReg .edx
    (load m (x.reg .esp + 8))
  obtain ⟨hcs, hseg⟩ := beforeIret_seg cpu z
  have hcpl : (beforeIret cpu z).cpl = 0 := by
    rw [State.cpl, hcs]
    exact hx
  exact iret_to_user (beforeIret_stack cpu z) hcpl hseg

/-! What the switch changes in memory. -/

theorem store_of_range (m : Memory) (w : UInt32) (hb : b.toNat + 4 ≤ 4294967296)
    (h : a.toNat < b.toNat ∨ b.toNat + 4 ≤ a.toNat) : store m b w a = m a := by
  refine store_apply_of_far m w ?_
  have ha := a.toNat_lt
  rw [UInt32.toNat_sub]
  omega

/-- The same stack with some words more. -/
structure Pushed (x y : State) (n : Nat) : Prop where
  esp : (y.reg .esp).toNat + 4 * n = (x.reg .esp).toNat
  mem : ∀ a : UInt32, a.toNat < (y.reg .esp).toNat ∨ (x.reg .esp).toNat ≤ a.toNat →
    y.mem a = x.mem a

theorem Pushed.push (h : Pushed x y n) (hn : 4 ≤ (y.reg .esp).toNat) (w : UInt32) :
    Pushed x (y.push w) (n + 1) := by
  have hesp : (y.reg .esp - 4).toNat = (y.reg .esp).toNat - 4 := by
    rw [UInt32.toNat_sub_of_le]
    · rfl
    · exact UInt32.le_iff_toNat_le.2 hn
  have hx := h.esp
  have hlt := (y.reg .esp).toNat_lt
  refine ⟨?_, fun a ha => ?_⟩
  · simp only [State.push, Function.update_self, hesp]
    omega
  · simp only [State.push, Function.update_self, hesp] at ha ⊢
    rw [store_of_range y.mem w (by omega) (by omega)]
    exact h.mem a (by omega)

theorem Pushed.refl (x : State) : Pushed x x 0 := ⟨rfl, fun _ _ => rfl⟩

theorem beforeIret_pushed (cpu : Cpu) (z : State) (h : 20 ≤ (z.reg .esp).toNat) :
    Pushed z (beforeIret cpu z) 5 := by
  have h₁ := (Pushed.refl z).push (by omega) 0x23
  have h₂ := h₁.push (by have := h₁.esp; omega) (z.reg .edx)
  have h₃ := h₂.push (by have := h₂.esp; omega) 0x202
  have h₄ := h₃.push (by have := h₃.esp; omega) 0x1B
  have h₅ := h₄.push (by have := h₄.esp; omega) (z.reg .ecx)
  exact ⟨h₅.esp, h₅.mem⟩

theorem iret_mem (t : State) : t.iret.mem = t.mem := by
  rw [State.iret]
  split <;> rfl

section Image

variable {L : Layout} {I : KernelImage L} {s : ProtectionState} {x : State} {esp0 : UInt32}

/-- The stack of the kernel has room for what `run_user_program_at` pushes. -/
def StackRoom (I : KernelImage L) (room : UInt32) (x : State) : Prop :=
  I.stackBottom.toNat + 32 + room.toNat ≤ (x.reg .esp).toNat ∧
    (x.reg .esp).toNat ≤ I.stackBottom.toNat + 16384

theorem StackRoom.switch_esp {room : UInt32} (hroom : StackRoom I room x) :
    (x.reg .esp - room).toNat = (x.reg .esp).toNat - room.toNat :=
  UInt32.toNat_sub_of_le _ _ (UInt32.le_iff_toNat_le.2 (Nat.le_trans (by omega) hroom.1))

theorem atSwitch_pushed {room : UInt32} (hroom : StackRoom I room x)
    (returnAddress entryPoint : UInt32) :
    (((atSwitch I room returnAddress entryPoint x).reg .esp).toNat + 12 + room.toNat =
      (x.reg .esp).toNat) ∧
      ∀ a : UInt32, a.toNat < I.stackBottom.toNat ∨ I.stackBottom.toNat + 16384 ≤ a.toNat →
        (atSwitch I room returnAddress entryPoint x).mem a =
          store (store x.mem (I.tss + 4) (x.reg .esp)) I.gUserKernelEsp (x.reg .esp) a := by
  obtain ⟨hlow, hhigh⟩ := hroom
  have hbefore := StackRoom.switch_esp ⟨hlow, hhigh⟩
  have h₀ := Pushed.refl (({ x with
    mem := store (store x.mem (I.tss + 4) (x.reg .esp)) I.gUserKernelEsp (x.reg .esp) } :
      State).setReg .esp (x.reg .esp - room))
  have hesp₀ : ((({ x with
    mem := store (store x.mem (I.tss + 4) (x.reg .esp)) I.gUserKernelEsp (x.reg .esp) } :
      State).setReg .esp (x.reg .esp - room)).reg .esp).toNat =
        (x.reg .esp).toNat - room.toNat := hbefore
  have h₁ := h₀.push (by omega) (.ofNat userStackTop)
  have h₂ := h₁.push (by have := h₁.esp; omega) entryPoint
  have h₃ := h₂.push (by have := h₂.esp; omega) returnAddress
  have hesp₃ := h₃.esp
  rw [hesp₀] at hesp₃
  have hesp : ((atSwitch I room returnAddress entryPoint x).reg .esp).toNat + 12 =
      (x.reg .esp).toNat - room.toNat := hesp₃
  refine ⟨by omega, fun a ha => h₃.mem a ?_⟩
  rw [hesp₀]
  change a.toNat < ((atSwitch I room returnAddress entryPoint x).reg .esp).toNat ∨ _
  omega

theorem asmSwitchToUser_mem (cpu : Cpu) (I : KernelImage L) (p : State)
    (h : 20 ≤ (p.reg .esp).toNat) {a : UInt32}
    (ha : a.toNat + 20 < (p.reg .esp).toNat ∨ (p.reg .esp).toNat ≤ a.toNat) :
    (asmSwitchToUser cpu I p).mem a = store p.mem I.gUserKernelEsp (p.reg .esp) a := by
  have hpushed := beforeIret_pushed cpu ((({ p with
    mem := store p.mem I.gUserKernelEsp (p.reg .esp) } : State).setReg .ecx
      (load (store p.mem I.gUserKernelEsp (p.reg .esp)) (p.reg .esp + 4))).setReg
    .edx (load (store p.mem I.gUserKernelEsp (p.reg .esp)) (p.reg .esp + 8))) h
  have hesp := hpushed.esp
  change _ = (p.reg .esp).toNat at hesp
  refine (congrFun (iret_mem _) a).trans (hpushed.mem a ?_)
  change _ ∨ (p.reg .esp).toNat ≤ _
  omega

/-- `run_user_program_at` changes `esp0`, `g_user_kernel_esp` and the stack. -/
theorem runUserProgramAt_mem (cpu : Cpu) {room : UInt32} (hroom : StackRoom I room x)
    (returnAddress entryPoint : UInt32) {a : UInt32}
    (hs : a.toNat < I.stackBottom.toNat ∨ I.stackBottom.toNat + 16384 ≤ a.toNat) :
    let kernelEsp := (atSwitch I room returnAddress entryPoint x).reg .esp
    (runUserProgramAt cpu I room returnAddress entryPoint x).mem a =
      store (store x.mem (I.tss + 4) (x.reg .esp)) I.gUserKernelEsp kernelEsp a := by
  intro kernelEsp
  obtain ⟨hesp, hmem⟩ := atSwitch_pushed hroom returnAddress entryPoint
  obtain ⟨hlow, hhigh⟩ := hroom
  have hswitch := asmSwitchToUser_mem cpu I (atSwitch I room returnAddress entryPoint x)
    (a := a) (by omega) (by omega)
  refine hswitch.trans ?_
  rw [← store_store (store x.mem (I.tss + 4) (x.reg .esp)) I.gUserKernelEsp (x.reg .esp)]
  exact store_apply_congr _ _ (hmem a hs)

/-- Between the two memories only `esp0`, `g_user_kernel_esp` and the stack differ. -/
theorem ProtectionState.Laid.started {m m' : Memory} {esp : UInt32}
    (h : (booted I s esp0).Laid I m)
    (hm : ∀ a : UInt32,
      a.toNat < I.gUserKernelEsp.toNat ∨ I.gUserKernelEsp.toNat + 4 ≤ a.toNat →
      a.toNat < I.stackBottom.toNat ∨ I.stackBottom.toNat + 16384 ≤ a.toNat →
      m' a = store m (I.tss + 4) esp a) :
    (booted I s esp).Laid I m' := by
  have hapart := List.pairwise_iff_getElem.1 I.apart
  have hbelow := L.below_user
  have htss := I.placed (I.tss.toNat, 104) (by simp)
  have htss₄ : (I.tss + 4).toNat = I.tss.toNat + 4 := by
    rw [UInt32.toNat_add]
    simp only [UInt32.reduceToNat]
    omega
  refine ⟨?_, ?_, ?_⟩
  · have hg := I.placed (I.gdt.toNat, 48) (by simp)
    have h₁ : I.gdt.toNat + 48 ≤ I.tss.toNat ∨ I.tss.toNat + 104 ≤ I.gdt.toNat :=
      hapart 0 1 (by simp) (by simp) (by decide)
    have h₂ : I.gdt.toNat + 48 ≤ I.gUserKernelEsp.toNat ∨
        I.gUserKernelEsp.toNat + 4 ≤ I.gdt.toNat :=
      hapart 0 3 (by simp) (by simp) (by decide)
    have h₃ : I.gdt.toNat + 48 ≤ I.stackBottom.toNat ∨
        I.stackBottom.toNat + 16384 ≤ I.gdt.toNat :=
      hapart 0 4 (by simp) (by simp) (by decide)
    refine h.gdt.congr (by decide) fun a ha => ?_
    have hin := range_of_sub (by omega) ha
    rw [hm a (by omega) (by omega)]
    exact store_of_range _ _ (by omega) (by omega)
  · have h₁ : I.tss.toNat + 104 ≤ I.gUserKernelEsp.toNat ∨
        I.gUserKernelEsp.toNat + 4 ≤ I.tss.toNat :=
      hapart 1 3 (by simp) (by simp) (by decide)
    have h₂ : I.tss.toNat + 104 ≤ I.stackBottom.toNat ∨
        I.stackBottom.toNat + 16384 ≤ I.tss.toNat :=
      hapart 1 4 (by simp) (by simp) (by decide)
    have hstore : HoldsWords (store m (I.tss + 4) esp) I.tss 26 (booted I s esp).tss.word := by
      intro i hi
      by_cases hone : i = 1
      · subst hone
        exact load_store_self m (I.tss + 4) esp
      · have hdist : (I.tss + 4 * UInt32.ofNat i - (I.tss + 4)).toNat =
            (4 * i + 4294967292) % 4294967296 := by
          rw [UInt32.toNat_sub, htss₄, UInt32.toNat_add, UInt32.toNat_mul, UInt32.toNat_ofNat']
          simp only [UInt32.reduceToNat]
          omega
        have hsame : (booted I s esp).tss.word i = (booted I s esp0).tss.word i := by
          unfold TssEntry.word
          split
          · rfl
          · exact absurd rfl hone
          · rfl
          · rfl
          · rfl
        rw [load_store_of_far m esp (by rw [hdist]; omega) (by rw [hdist]; omega), h.tss i hi,
          hsame]
    refine hstore.congr (by decide) fun a ha => ?_
    have hin := range_of_sub (by omega) ha
    exact hm a (by omega) (by omega)
  · have hi := I.placed (I.idt.toNat, 2048) (by simp)
    have h₁ : I.tss.toNat + 104 ≤ I.idt.toNat ∨ I.idt.toNat + 2048 ≤ I.tss.toNat :=
      hapart 1 2 (by simp) (by simp) (by decide)
    have h₂ : I.idt.toNat + 2048 ≤ I.gUserKernelEsp.toNat ∨
        I.gUserKernelEsp.toNat + 4 ≤ I.idt.toNat :=
      hapart 2 3 (by simp) (by simp) (by decide)
    have h₃ : I.idt.toNat + 2048 ≤ I.stackBottom.toNat ∨
        I.stackBottom.toNat + 16384 ≤ I.idt.toNat :=
      hapart 2 4 (by simp) (by simp) (by decide)
    refine h.idt.congr (by decide) fun a ha => ?_
    have hin := range_of_sub (by omega) ha
    rw [hm a (by omega) (by omega)]
    exact store_of_range _ _ (by omega) (by omega)

/-! What a program can do. -/

/-- The memory as the paging code has it. -/
def physical (m : Memory) : Mem := fun a => m (.ofNat a)

instance (L : Layout) (m : Mem) (v : Nat) : Decidable (UserWritable L m v) := by
  unfold UserWritable
  infer_instance

/-- The error code of the page fault for a store of a program. Pages are mapped to themselves. -/
def pageFault (L : Layout) (m : Memory) (a : UInt32) : Option Nat :=
  if UserWritable L (physical m) a.toNat then none
  else if pageGetPhys (physical m) L.gPageDirectory a.toNat = 0 then some 6
  else some 7

/-- The objects that the protection rests on, and the word for the stack pointer. -/
def KernelImage.Guards (I : KernelImage L) (a : UInt32) : Prop :=
  (a - I.gdt).toNat < 48 ∨ (a - I.tss).toNat < 104 ∨ (a - I.idt).toNat < 2048 ∨
    (a - I.gUserKernelEsp).toNat < 4 ∨ TableByte L a.toNat

/-- What holds whenever a program runs. -/
structure Isolated (I : KernelImage L) (s : ProtectionState) (esp0 kernelEsp : UInt32)
    (x : State) : Prop where
  confines : (booted I s esp0).tables.Confines x
  laid : (booted I s esp0).Laid I x.mem
  pages : ∃ M, PageRep L (physical x.mem) M ∧ M.Confined
  stored : load x.mem I.gUserKernelEsp = kernelEsp

theorem userWritable_accessible {m : Mem} (h : UserWritable L m v) : UserAccessible L m v := by
  have huser : ∀ w : Nat, w &&& (pagePresent ||| pageWrite ||| pageUser) =
      pagePresent ||| pageWrite ||| pageUser → w &&& pageUser ≠ 0 := by
    intro w hw hzero
    have hmask : (pagePresent ||| pageWrite ||| pageUser) &&& pageUser = pageUser := by decide
    rw [← hmask, ← Nat.and_assoc, hw] at hzero
    exact absurd hzero (by decide)
  exact ⟨huser _ h.1, huser _ h.2.1⟩

theorem pageFault_none {x : State} (h : Isolated I s esp0 kernelEsp x) {a : UInt32}
    (ha : pageFault L x.mem a = none) : UserAddress a.toNat := by
  obtain ⟨M, hM, hconf⟩ := h.pages
  have hw : UserWritable L (physical x.mem) a.toNat := by
    by_contra hw
    simp only [pageFault, hw, if_false] at ha
    split at ha <;> cases ha
  exact hM.confined hconf a.toNat_lt (userWritable_accessible hw)

theorem userAddress_not_guarded (I : KernelImage L) {a : UInt32} (h : UserAddress a.toNat) :
    ¬ I.Guards a := by
  have hbelow := L.below_user
  have hhigh : 0x00800000 ≤ a.toNat := by
    simp only [UserAddress, userProgramBase, userProgramMaxSize, userStackTop, userStackSize] at h
    omega
  have hobject : ∀ {base : UInt32} {n : Nat}, base.toNat + n ≤ L.kernelEnd →
      ¬ (a - base).toNat < n := by
    intro base n hb hlt
    have hin := range_of_sub (by omega) hlt
    omega
  rintro (hg | hg | hg | hg | hg)
  · exact hobject (I.placed (I.gdt.toNat, 48) (by simp)) hg
  · exact hobject (I.placed (I.tss.toNat, 104) (by simp)) hg
  · exact hobject (I.placed (I.idt.toNat, 2048) (by simp)) hg
  · exact hobject (I.placed (I.gUserKernelEsp.toNat, 4) (by simp)) hg
  · have hd := L.directory_placed
    have ht := L.tables_placed
    rw [TableByte] at hg
    omega

/-- What keeps the guarded bytes keeps the tables and the pages. -/
theorem Isolated.of_guards {x' : State} (h : Isolated I s esp0 kernelEsp x)
    (hm : ∀ a, I.Guards a → x'.mem a = x.mem a)
    (hc : (booted I s esp0).Laid I x'.mem → (booted I s esp0).tables.Confines x') :
    Isolated I s esp0 kernelEsp x' := by
  have hlaid : (booted I s esp0).Laid I x'.mem := by
    refine ⟨?_, ?_, ?_⟩
    · exact h.laid.gdt.congr (by decide) fun a ha => hm a (.inl ha)
    · exact h.laid.tss.congr (by decide) fun a ha => hm a (.inr (.inl ha))
    · exact h.laid.idt.congr (by decide) fun a ha => hm a (.inr (.inr (.inl ha)))
  refine ⟨hc hlaid, hlaid, ?_, ?_⟩
  · obtain ⟨M, hM, hconf⟩ := h.pages
    refine ⟨M, hM.of_same fun a ha => hm _ (.inr (.inr (.inr (.inr ?_)))), hconf⟩
    have hlt : a < 4294967296 := by
      have hd := L.directory_placed
      have ht := L.tables_placed
      have hbelow := L.below_user
      rw [TableByte] at ha
      omega
    rw [UInt32.toNat_ofNat', Nat.mod_eq_of_lt hlt]
    exact ha
  · exact (load_congr fun a ha => hm a (.inr (.inr (.inr (.inl ha))))).trans h.stored

/-- The same rights under tables that are laid out the same. -/
theorem confines_congr {x x' : State} (h : (booted I s esp0).tables.Confines x)
    (hl : (booted I s esp0).Laid I x.mem) (hl' : (booted I s esp0).Laid I x'.mem)
    (hseg : x'.seg = x.seg) (hflags : x'.eflags = x.eflags) :
    (booted I s esp0).tables.Confines x' := by
  have hdesc : (booted I s esp0).tables.descriptor x'.mem =
      (booted I s esp0).tables.descriptor x.mem := by
    funext sel
    rw [booted_descriptor hl, booted_descriptor hl']
  refine ⟨?_, ?_, ?_, ?_, ?_⟩
  · rw [State.cpl, hseg]
    exact h.cpl
  · rw [State.iopl, hflags]
    exact h.iopl
  · rw [State.interruptsOn, hflags]
    exact h.interruptsOn
  · rw [hdesc, hseg]
    exact h.code
  · rw [Tables.mayLoad_congr _ hdesc, hseg]
    exact h.segments

/-- An action of a program. -/
theorem Isolated.act {x' : State} (h : Isolated I s esp0 kernelEsp x) {a : Action}
    (ha : (booted I s esp0).tables.act (pageFault L) x a = .goesOn x') :
    Isolated I s esp0 kernelEsp x' := by
  refine h.of_guards (fun b hb => Tables.act_mem ha fun hnone => ?_) fun _ => ?_
  · exact userAddress_not_guarded I (pageFault_none h hnone) hb
  · refine h.confines.act (fun b hnone hcovers => ?_) ha
    refine userAddress_not_guarded I (pageFault_none h hnone) (.inl ?_)
    rw [booted_tables] at hcovers
    exact Nat.lt_succ_of_le hcovers


theorem iret_seg (t : State) (hcs : r ≠ .cs) (hss : r ≠ .ss) : t.iret.seg r = t.seg r := by
  simp only [State.iret]
  split <;>
    simp only [State.setReg, State.setSeg, Function.update_of_ne hcs, Function.update_of_ne hss]

theorem resumes_of_agrees {gate : Gate} {t : State} (hv : Agrees t v)
    (hstack : v.stack = returnFrame gate x) (hesp : v.reg .esp = (x.interrupt cpu gate).reg .esp)
    (hsegs : v.seg = (x.interrupt cpu gate).seg) :
    t.iret.seg = x.seg ∧ t.iret.eflags = x.eflags := by
  have hholds := hv.stack
  rw [hstack, ← hv.reg] at hholds
  rw [← hv.reg] at hesp
  rw [← hv.seg] at hsegs
  obtain ⟨-, hflags, -, hcs, hss⟩ := iret_interrupt hholds hesp
    (hsegs ▸ interrupt_cs cpu gate x) (congrFun hsegs .ss)
  refine ⟨funext fun r => ?_, hflags⟩
  by_cases hr : r = .cs
  · rw [hr, hcs]
  · by_cases hr' : r = .ss
    · rw [hr', hss]
    · rw [iret_seg t hr hr', hsegs, interrupt_seg cpu gate x hr hr']

/-- A key and a system call return to the program with its segments and flags. -/
theorem served_resumes (cpu : Cpu) (gate : Gate) (x : State)
    (C : InterruptHandlers (returnFrame gate x).length) {stub : InterruptStub}
    (hstub : stub ≠ .pageFault) :
    let t := (atIret cpu (stub.code C) (x.interrupt cpu gate)).iret
    t.seg = x.seg ∧ t.eflags = x.eflags := by
  have hframe := interrupt_frame cpu gate x
  have hlen := length_returnFrame gate x
  cases stub with
  | keyboard =>
    obtain ⟨v, hv, hstack, hesp, -, -, hsegs⟩ :=
      keyboard_atIret cpu (x.interrupt cpu gate) C.keyboardHandler hframe (by omega)
        (Nat.le_refl _)
    exact resumes_of_agrees hv hstack hesp hsegs
  | syscall =>
    obtain ⟨v, hv, hstack, hesp, -, -, hsegs⟩ :=
      syscall_atIret cpu (x.interrupt cpu gate) C hframe (by omega) (Nat.le_refl _)
    exact resumes_of_agrees hv hstack hesp hsegs
  | pageFault => exact absurd rfl hstub

/-- The states of a program, from its start on: its own actions, and the times when the kernel
serves a key or a system call, with handlers that leave the tables and the pages alone. -/
inductive ProgramRun (cpu : Cpu) (I : KernelImage L) (s : ProtectionState) (esp0 : UInt32)
    (start : State) : State → Prop where
  | start : ProgramRun cpu I s esp0 start start
  | act {x x' : State} (h : ProgramRun cpu I s esp0 start x) (a : Action)
      (ha : (booted I s esp0).tables.act (pageFault L) x a = .goesOn x') :
      ProgramRun cpu I s esp0 start x'
  | served {x : State} (h : ProgramRun cpu I s esp0 start x) (a : Action) (e : Event)
      (stub : InterruptStub)
      (C : InterruptHandlers (returnFrame (I.gate (.interrupt stub) esp0) x).length)
      (ha : (booted I s esp0).tables.act (pageFault L) x a = .raises e)
      (ht : (booted I s esp0).tables.take cpu x 4 e =
        some (x.interrupt cpu (I.gate (.interrupt stub) esp0)))
      (hstub : stub ≠ .pageFault)
      (hkeeps : ∀ b, I.Guards b →
        (atIret cpu (stub.code C) (x.interrupt cpu (I.gate (.interrupt stub) esp0))).mem b =
          x.mem b) :
      ProgramRun cpu I s esp0 start
        (atIret cpu (stub.code C) (x.interrupt cpu (I.gate (.interrupt stub) esp0))).iret

theorem ProgramRun.isolated {start : State} (h : ProgramRun cpu I s esp0 start x)
    (h₀ : Isolated I s esp0 kernelEsp start) : Isolated I s esp0 kernelEsp x := by
  induction h with
  | start => exact h₀
  | act _ a ha ih => exact ih.act ha
  | served _ a e stub C _ _ hstub hkeeps ih =>
    obtain ⟨hseg, hflags⟩ := served_resumes cpu _ _ C hstub
    refine ih.of_guards (fun b hb => ?_) fun hlaid => ?_
    · rw [iret_mem]
      exact hkeeps b hb
    · exact confines_congr ih.confines ih.laid hlaid hseg hflags

/-- The selectors that a program can have. -/
structure UserSelectors (x : State) : Prop where
  cs : x.seg .cs = 0x1B
  ss : x.seg .ss = 0x23
  data : ∀ r, r ≠ .cs → r ≠ .ss →
    (x.seg r).toNat / 4 = 0 ∨ (x.seg r).toNat / 4 = 6 ∨ (x.seg r).toNat / 4 = 8

theorem Isolated.selectors (h : Isolated I s esp0 kernelEsp x) : UserSelectors x := by
  obtain ⟨d, hd, hcode, -, hdpl⟩ := h.confines.code
  have hcpl := h.confines.cpl
  rw [State.cpl] at hcpl
  refine ⟨?_, ?_, ?_⟩
  · obtain ⟨hti, hkinds⟩ := booted_kinds h.laid hd
    have hindex : (x.seg .cs).toNat / 8 = 3 := by
      rcases hkinds with ⟨-, rfl⟩ | ⟨-, rfl⟩ | ⟨hi, -⟩ | ⟨-, rfl⟩ | ⟨-, haccess⟩
      · exact absurd (hdpl (by decide)) (by decide)
      · exact absurd hcode (by decide)
      · exact hi
      · exact absurd hcode (by decide)
      · rw [Descriptor.isCode, Descriptor.isSegment, haccess] at hcode
        exact absurd hcode (by decide)
    apply UInt16.toNat_inj.1
    simp only [UInt16.reduceToNat]
    omega
  · have hload := h.confines.segments .ss SegReg.noConfusion
    simp only [Tables.mayLoad] at hload
    split at hload
    · cases hload
    · next d' hd' =>
      split at hload
      · cases hload
      · next hok =>
        obtain ⟨hti, hkinds⟩ := booted_kinds h.laid hd'
        have hindex : (x.seg .ss).toNat / 8 = 4 := by
          rcases hkinds with ⟨-, rfl⟩ | ⟨-, rfl⟩ | ⟨-, rfl⟩ | ⟨hi, -⟩ | ⟨-, haccess⟩
          · exact absurd (.inr (.inl (by decide))) hok
          · exact absurd (.inr (.inr (by decide))) hok
          · exact absurd (.inr (.inl (by decide))) hok
          · exact hi
          · refine absurd (.inr (.inl ?_)) hok
            rw [Descriptor.isWritable, Descriptor.isCode, Descriptor.isSegment, haccess]
            decide
        apply UInt16.toNat_inj.1
        simp only [UInt16.reduceToNat]
        omega
  · intro r hcs hss
    have hload := h.confines.segments r hcs
    have hdata : ∀ sel, (booted I s esp0).tables.mayLoad x.mem 3 .ds sel = .ok () →
        sel.toNat / 4 = 0 ∨ sel.toNat / 4 = 6 ∨ sel.toNat / 4 = 8 := by
      intro sel hsel
      simp only [Tables.mayLoad] at hsel
      split at hsel
      · next hnull => exact .inl hnull
      · split at hsel
        · cases hsel
        · next d' hd' =>
          split at hsel
          · cases hsel
          · next hok =>
            obtain ⟨hti, hkinds⟩ := booted_kinds h.laid hd'
            rcases hkinds with ⟨-, rfl⟩ | ⟨-, rfl⟩ | ⟨hi, -⟩ | ⟨hi, -⟩ | ⟨-, haccess⟩
            · exact absurd (.inr ⟨by decide, .inr (by decide)⟩) hok
            · exact absurd (.inr ⟨by decide, .inr (by decide)⟩) hok
            · omega
            · omega
            · refine absurd (.inl ?_) hok
              rw [Descriptor.isReadable, Descriptor.isCode, Descriptor.isSegment, haccess]
              decide
    cases r with
    | cs => exact absurd rfl hcs
    | ss => exact absurd rfl hss
    | ds => exact hdata _ hload
    | es => exact hdata _ hload
    | fs => exact hdata _ hload
    | gs => exact hdata _ hload

/-- The checks of the processor allow the switch, and the segments in the program. -/
theorem switch_allowed (hm : (booted I s esp0).Laid I m) :
    (∀ r, r ≠ .cs → r ≠ .ss → (booted I s esp0).tables.mayLoad m 0 r 0x23 = .ok ()) ∧
      (booted I s esp0).tables.mayReturn m 0 0x1B 0x23 = .ok () ∧
      ∀ r, r ≠ .cs → (booted I s esp0).tables.mayLoad m 3 r 0x23 = .ok () := by
  obtain ⟨-, -, hcode, hdata⟩ := booted_selectors hm
  refine ⟨fun r hcs hss => ?_, ?_, fun r hcs => ?_⟩
  · cases r with
    | cs => exact absurd rfl hcs
    | ss => exact absurd rfl hss
    | ds | es | fs | gs =>
      simp only [Tables.mayLoad, hdata]
      rfl
  · simp only [Tables.mayReturn, Tables.mayLoad, hcode, hdata]
    rfl
  · cases r with
    | cs => exact absurd rfl hcs
    | ss | ds | es | fs | gs =>
      simp only [Tables.mayLoad, hdata]
      rfl

theorem Started.confines {y : State} (h : Started entryPoint stackTop y)
    (hl : (booted I s esp0).Laid I y.mem) : (booted I s esp0).tables.Confines y := by
  refine ⟨?_, ?_, ?_, ?_, fun r hr => ?_⟩
  · rw [State.cpl, h.cs]
    decide
  · rw [State.iopl, h.eflags]
    decide
  · rw [State.interruptsOn, h.eflags]
    decide
  · rw [h.cs]
    exact ⟨userCode, (booted_selectors hl).2.2.1, by decide, by decide, fun _ => by decide⟩
  · rw [h.segments r hr]
    exact (switch_allowed hl).2.2 r hr

/-- A program that has just been started is isolated. -/
theorem runUserProgramAt_isolated (cpu : Cpu) {room : UInt32} (hcpl : x.cpl = 0)
    (hroom : StackRoom I room x) (hl : (booted I s esp0).Laid I x.mem)
    (hpages : ∃ M, PageRep L (physical x.mem) M ∧ M.Confined)
    (returnAddress entryPoint : UInt32) :
    let y := runUserProgramAt cpu I room returnAddress entryPoint x
    Started entryPoint (.ofNat userStackTop) y ∧
      Isolated I s (x.reg .esp) ((atSwitch I room returnAddress entryPoint x).reg .esp) y := by
  intro y
  have hapart := List.pairwise_iff_getElem.1 I.apart
  have hbelow := L.below_user
  have hg := I.placed (I.gUserKernelEsp.toNat, 4) (by simp)
  have hgs : I.gUserKernelEsp.toNat + 4 ≤ I.stackBottom.toNat ∨
      I.stackBottom.toNat + 16384 ≤ I.gUserKernelEsp.toNat :=
    hapart 3 4 (by simp) (by simp) (by decide)
  have hstarted : Started entryPoint (.ofNat userStackTop) y := by
    obtain ⟨hesp, -⟩ := atSwitch_pushed hroom returnAddress entryPoint
    obtain ⟨hlow, hhigh⟩ := hroom
    have h₁ := (HoldsSlots.nil (store (store x.mem (I.tss + 4) (x.reg .esp)) I.gUserKernelEsp
      (x.reg .esp)) (x.reg .esp - room)).push (x := .word (.ofNat userStackTop)) (by decide) rfl
    have h₂ := h₁.push (x := .word entryPoint) (by simp) rfl
    have hstack : HoldsSlots (atSwitch I room returnAddress entryPoint x).mem
        ((atSwitch I room returnAddress entryPoint x).reg .esp)
        [.word returnAddress, .word entryPoint, .word (.ofNat userStackTop)] :=
      h₂.push (x := .word returnAddress) (by simp) rfl
    have hentry : load _ (_ + 4) = entryPoint := hstack.fits 1 _ rfl
    have htop : load _ (_ + 8) = .ofNat userStackTop := hstack.fits 2 _ rfl
    have hswitch := asmSwitchToUser_started cpu I (atSwitch I room returnAddress entryPoint x) hcpl
    -- the store to g_user_kernel_esp leaves the arguments alone
    have hfar : ∀ k : UInt32, k.toNat ≤ 8 →
        4 ≤ ((atSwitch I room returnAddress entryPoint x).reg .esp + k -
          I.gUserKernelEsp).toNat ∧
        ((atSwitch I room returnAddress entryPoint x).reg .esp + k -
          I.gUserKernelEsp).toNat ≤ 4294967292 := by
      intro k hk
      have hx := (x.reg .esp).toNat_lt
      rw [UInt32.toNat_sub, UInt32.toNat_add]
      omega
    have h4 := hfar 4 (by decide)
    have h8 := hfar 8 (by decide)
    simp only [load_store_of_far _ _ h4.1 h4.2, load_store_of_far _ _ h8.1 h8.2, hentry,
      htop] at hswitch
    exact hswitch
  have hmem : ∀ a : UInt32,
      a.toNat < I.gUserKernelEsp.toNat ∨ I.gUserKernelEsp.toNat + 4 ≤ a.toNat →
      a.toNat < I.stackBottom.toNat ∨ I.stackBottom.toNat + 16384 ≤ a.toNat →
      y.mem a = store x.mem (I.tss + 4) (x.reg .esp) a := by
    intro a ha hs
    exact (runUserProgramAt_mem cpu hroom returnAddress entryPoint hs).trans
      (store_of_range _ _ (by omega) ha)
  have hlaid := hl.started hmem
  refine ⟨hstarted, hstarted.confines hlaid, hlaid, ?_, ?_⟩
  · obtain ⟨M, hM, hconf⟩ := hpages
    refine ⟨M, hM.of_same fun a ha => ?_, hconf⟩
    have h₁ : I.tss.toNat + 104 ≤ L.gPageDirectory ∨ L.gPageDirectory + 4096 ≤ I.tss.toNat :=
      hapart 1 5 (by simp) (by simp) (by decide)
    have h₂ : I.tss.toNat + 104 ≤ L.gPageTables ∨ L.gPageTables + 131072 ≤ I.tss.toNat :=
      hapart 1 6 (by simp) (by simp) (by decide)
    have h₃ : I.gUserKernelEsp.toNat + 4 ≤ L.gPageDirectory ∨
        L.gPageDirectory + 4096 ≤ I.gUserKernelEsp.toNat :=
      hapart 3 5 (by simp) (by simp) (by decide)
    have h₄ : I.gUserKernelEsp.toNat + 4 ≤ L.gPageTables ∨
        L.gPageTables + 131072 ≤ I.gUserKernelEsp.toNat :=
      hapart 3 6 (by simp) (by simp) (by decide)
    have h₅ : I.stackBottom.toNat + 16384 ≤ L.gPageDirectory ∨
        L.gPageDirectory + 4096 ≤ I.stackBottom.toNat :=
      hapart 4 5 (by simp) (by simp) (by decide)
    have h₆ : I.stackBottom.toNat + 16384 ≤ L.gPageTables ∨
        L.gPageTables + 131072 ≤ I.stackBottom.toNat :=
      hapart 4 6 (by simp) (by simp) (by decide)
    have htss := I.placed (I.tss.toNat, 104) (by simp)
    have hd := L.directory_placed
    have ht := L.tables_placed
    rw [TableByte] at ha
    have hval : (UInt32.ofNat a).toNat = a := by
      rw [UInt32.toNat_ofNat']
      omega
    have htss₄ : (I.tss + 4).toNat = I.tss.toNat + 4 := by
      rw [UInt32.toNat_add]
      simp only [UInt32.reduceToNat]
      omega
    refine (hmem (.ofNat a) (by omega) (by omega)).trans ?_
    exact store_of_range _ _ (by omega) (by omega)
  · refine (load_congr fun a ha => ?_).trans (load_store_self (store x.mem (I.tss + 4)
      (x.reg .esp)) I.gUserKernelEsp _)
    have hin := range_of_sub (by omega) ha
    exact runUserProgramAt_mem cpu hroom returnAddress entryPoint (by omega)

/-- What a program at work can reach: its level, its segments, what its next action can come to,
and where the processor goes when the action does not go on. -/
structure Contained (cpu : Cpu) (I : KernelImage L) (s : ProtectionState)
    (esp0 kernelEsp : UInt32) (y : State) : Prop where
  cpl : y.cpl = 3
  interruptsOn : y.interruptsOn = true
  selectors : UserSelectors y
  flat : ∀ r d, (booted I s esp0).tables.descriptor y.mem (y.seg r) = some d → d.isFlat
  laid : (booted I s esp0).Laid I y.mem
  stored : load y.mem I.gUserKernelEsp = kernelEsp
  goesOn : ∀ a y', (booted I s esp0).tables.act (pageFault L) y a = .goesOn y' →
    ∀ b : UInt32, ¬ UserAddress b.toNat → y'.mem b = y.mem b
  raises : ∀ a e n, (booted I s esp0).tables.act (pageFault L) y a = .raises e →
    (booted I s esp0).tables.take cpu y (n + 2) e =
      some (I.stubEntry cpu esp0 y (eventStub 3 e).1 (eventStub 3 e).2)
  leaves : ∀ a d, (booted I s esp0).tables.act (pageFault L) y a ≠ .leaves d
  ports : ∀ p width, (booted I s esp0).tables.act (pageFault L) y (.port p width) =
    .raises (protection 0)

theorem Isolated.flat (h : Isolated I s esp0 kernelEsp x)
    (hd : (booted I s esp0).tables.descriptor x.mem (x.seg r) = some d) : d.isFlat := by
  have hsel := h.selectors
  have hflat : userCode.isFlat ∧ userData.isFlat := by
    refine ⟨⟨?_, ?_⟩, ?_, ?_⟩ <;> decide
  obtain ⟨-, hkinds⟩ := booted_kinds h.laid hd
  have hindex : (x.seg r).toNat / 8 = 0 ∨ (x.seg r).toNat / 8 = 3 ∨ (x.seg r).toNat / 8 = 4 := by
    by_cases hcs : r = .cs
    · rw [hcs, hsel.cs]
      decide
    · by_cases hss : r = .ss
      · rw [hss, hsel.ss]
        decide
      · have hdata := hsel.data r hcs hss
        omega
  rcases hkinds with ⟨hi, -⟩ | ⟨hi, -⟩ | ⟨-, rfl⟩ | ⟨-, rfl⟩ | ⟨hi, -⟩
  · omega
  · omega
  · exact hflat.1
  · exact hflat.2
  · omega

theorem Isolated.contained (cpu : Cpu) (h : Isolated I s esp0 kernelEsp x) :
    Contained cpu I s esp0 kernelEsp x := by
  have hsealed := booted_sealed h.laid
  refine ⟨h.confines.cpl, h.confines.interruptsOn, h.selectors, fun r d hd => h.flat hd, h.laid,
    h.stored, fun a y' ha b hb => ?_, fun a e n _ => ?_, fun a d => ?_, fun p width => ?_⟩
  · exact Tables.act_mem ha fun hnone => hb (pageFault_none h hnone)
  · have htake := booted_take cpu h.laid e n
    rwa [h.confines.cpl] at htake
  · exact hsealed.act_ne_leaves h.confines a d
  · exact hsealed.act_port h.confines p width

/-- A program cannot leave its place: on the tables of the kernel and the page tables that the
loader has left, in every run of a program from its start on, through any number of keys and
system calls that leave the tables alone, it stays at level 3 in its flat segments with interrupts
on and without ports, changes no byte but those of its own pages, and whatever else it tries leads
to a stub of the kernel. -/
theorem user_program_contained (cpu : Cpu) {room : UInt32}
    (hload : LoaderRun L (Confining L) ms)
    (hpages : ∀ a, TableByte L a → physical x.mem a = ms.mem a) (hcpl : x.cpl = 0)
    (hroom : StackRoom I room x) (hl : (booted I s esp0).Laid I x.mem)
    (returnAddress entryPoint : UInt32)
    (hrun : ProgramRun cpu I s (x.reg .esp)
      (runUserProgramAt cpu I room returnAddress entryPoint x) y) :
    (∀ r, r ≠ .cs → r ≠ .ss → (booted I s esp0).tables.mayLoad x.mem 0 r 0x23 = .ok ()) ∧
      (booted I s esp0).tables.mayReturn x.mem 0 0x1B 0x23 = .ok () ∧
      Started entryPoint (.ofNat userStackTop)
        (runUserProgramAt cpu I room returnAddress entryPoint x) ∧
      Contained cpu I s (x.reg .esp)
        ((atSwitch I room returnAddress entryPoint x).reg .esp) y := by
  obtain ⟨M, hM, hconf⟩ := hload.guarded.pages
  obtain ⟨hstarted, hisolated⟩ := runUserProgramAt_isolated cpu hcpl hroom hl
    ⟨M, hM.of_same hpages, hconf⟩ returnAddress entryPoint
  obtain ⟨hsegments, hreturn, -⟩ := switch_allowed hl
  exact ⟨hsegments, hreturn, hstarted, (hrun.isolated hisolated).contained cpu⟩

end Image

/-- The kernel at a call of `run_user_program_at`, over some memory. -/
def kernelCaller (m : Memory) : State where
  reg := fun r => if r = .esp then 0x00235F00 else 0
  seg := fun r => if r = .cs then 0x08 else 0x10
  eip := 0x00101000
  eflags := 0x202
  mem := (booted KernelImage.sample .blank 0x90000).place KernelImage.sample m
  ports := []

theorem kernelCaller_pages (ms : MemoryState) {a : Nat}
    (ha : TableByte Layout.sample a) :
    physical (kernelCaller fun a => ms.mem a.toNat).mem a = ms.mem a := by
  have hval : (UInt32.ofNat a).toNat = a := by
    have hd := Layout.sample.directory_placed
    have ht := Layout.sample.tables_placed
    have hbelow := Layout.sample.below_user
    rw [TableByte] at ha
    rw [UInt32.toNat_ofNat']
    omega
  have hplace := (booted KernelImage.sample .blank 0x90000).place_tableByte KernelImage.sample
    (fun a => ms.mem a.toNat) (a := .ofNat a) (by rwa [hval])
  exact hplace.trans (congrArg ms.mem hval)

theorem kernelCaller_room (m : Memory) : StackRoom KernelImage.sample 0x40 (kernelCaller m) := by
  rw [StackRoom, show (kernelCaller m).reg .esp = 0x00235F00 from rfl]
  decide

theorem first_step_contained : ∃ ms, LoaderRun Layout.sample (Confining Layout.sample) ms ∧
    ∃ y, Contained .zeroExtending KernelImage.sample .blank 0x00235F00
      ((atSwitch KernelImage.sample 0x40 0x00101010 0x00800000
        (kernelCaller fun a => ms.mem a.toNat)).reg .esp) y ∧ y.eip = 0x00800005 := by
  obtain ⟨ms, hms⟩ := Option.isSome_iff_exists.1 (memoryInit_default Layout.sample bootMemory rfl)
  have hload : LoaderRun Layout.sample (Confining Layout.sample) ms := .boot rfl rfl hms
  have hcpl : (0x08 : UInt16).toNat % 4 = 0 := by decide
  let start := runUserProgramAt .zeroExtending KernelImage.sample 0x40 0x00101010 0x00800000
    (kernelCaller fun a => ms.mem a.toNat)
  have hrun : ProgramRun .zeroExtending KernelImage.sample .blank 0x00235F00 start
      { start with reg := fun _ => 0, eip := 0x00800005, eflags := start.withFlags 0 } :=
    .act .start (.compute (fun _ => 0) 0x00800005 0) rfl
  exact ⟨ms, hload, _, (user_program_contained .zeroExtending hload
    (fun _ ha => kernelCaller_pages ms ha) hcpl (kernelCaller_room _)
    (ProtectionState.place_laid ..) 0x00101010 0x00800000 hrun).2.2.2, rfl⟩

end KernelCustom
