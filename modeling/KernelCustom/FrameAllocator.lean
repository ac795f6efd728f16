import KernelCustom.MemoryInit
import KernelCustom.HeapGuarantees
import KernelCustom.Bitmap
import Mathlib.Data.Finset.Basic

namespace KernelCustom
open Word32 ByteStore BlockTiling
set_option autoImplicit true

def maxFrames : Nat := maxPhysMemBytes / pageSize
def frameBitmapWords : Nat := maxFrames / 8 / 4

/-- What a call to the frame allocator answers: its result, the state after it, and the words of
the bitmap that it read or wrote. -/
structure FrameAnswer where
  result : Nat
  state : MemoryState
  words : List Nat

/-- The loop of `pmm_alloc_frame`, with that many frames still to go. -/
def allocFrom (s : MemoryState) : Nat → Nat → FrameAnswer
  | 0, _ => ⟨0, s, []⟩
  | left + 1, frame =>
    if testFrame s.gFrameBitmap frame then
      let r := allocFrom s left (frame + 1)
      { r with words := frame / 32 :: r.words }
    else
      ⟨wrap (frame * pageSize), { s with gFrameBitmap := setFrame s.gFrameBitmap frame },
        [frame / 32, frame / 32]⟩

def pmmAllocFrame (s : MemoryState) : FrameAnswer := allocFrom s s.gTotalFrames 0

def pmmFreeFrame (s : MemoryState) (physAddr : Nat) : FrameAnswer :=
  let frame := frameIndex physAddr
  if frame < s.gTotalFrames then
    ⟨0, { s with gFrameBitmap := clearFrame s.gFrameBitmap frame }, [frame / 32]⟩
  else ⟨0, s, []⟩

theorem testFrame_eq (bitmap : Nat → Nat) (frame : Nat) :
    testFrame bitmap frame = Bitmap.bit 32 bitmap frame := Bitmap.shift_and_one bitmap frame

theorem testFrame_setFrame (bitmap : Nat → Nat) (f g : Nat) :
    testFrame (setFrame bitmap f) g = (decide (f = g) || testFrame bitmap g) := by
  rw [testFrame_eq, testFrame_eq, setFrame, Bitmap.bit_or]

theorem compl_testBit (hi : i < 32) (hk : k < 32) :
    (Word32.compl (1 <<< i)).testBit k = !decide (i = k) := by
  have hlt : 2 ^ i < 2 ^ 32 := Nat.pow_lt_pow_right (by decide) hi
  have hc : Word32.compl (1 <<< i) = 2 ^ 32 - (2 ^ i + 1) := by
    rw [Word32.compl, Nat.one_shiftLeft]
    omega
  rw [hc, Nat.testBit_two_pow_sub_succ hlt, Nat.testBit_two_pow]
  simp only [hk, decide_true, Bool.true_and]

theorem testFrame_clearFrame (bitmap : Nat → Nat) (f g : Nat) :
    testFrame (clearFrame bitmap f) g = (!decide (f = g) && testFrame bitmap g) := by
  have hmask : ∀ k, k < 32 → (Word32.compl (1 <<< (f % 32))).testBit k = !decide (f % 32 = k) :=
    fun k hk => compl_testBit (Nat.mod_lt _ (by decide)) hk
  rw [testFrame_eq, testFrame_eq, clearFrame, Bitmap.bit_and _ _ _ (by decide) hmask]

/-- A frame that `pmm_alloc_frame` may give out. -/
def MemoryState.Free (s : MemoryState) (frame : Nat) : Prop :=
  frame < s.gTotalFrames ∧ testFrame s.gFrameBitmap frame = false

/-- The sizes that `memory_init` leaves: whole pages, at most 512 MiB. -/
structure MemoryState.Sized (s : MemoryState) : Prop where
  aligned : s.gTotalMemoryBytes % 4096 = 0
  bounded : s.gTotalMemoryBytes ≤ 536870912
  frames : s.gTotalFrames = s.gTotalMemoryBytes / 4096

theorem MemoryState.Sized.only {s s' : MemoryState} (h : s.Sized) (ho : OnlyFrames s s') :
    s'.Sized := by
  obtain ⟨bitmap, rfl⟩ := ho
  exact ⟨h.aligned, h.bounded, h.frames⟩

theorem allocFrom_none (h : ∀ f, frame ≤ f → f < frame + left → testFrame s.gFrameBitmap f = true) :
    (allocFrom s left frame).result = 0 ∧ (allocFrom s left frame).state = s := by
  induction left generalizing frame with
  | zero => exact ⟨rfl, rfl⟩
  | succ left ih =>
    rw [allocFrom, if_pos (h frame (by omega) (by omega))]
    exact ih fun f hl hu => h f (by omega) (by omega)

/-- The loop takes the first free frame it meets. -/
theorem allocFrom_some (hl : frame ≤ f) (hu : f < frame + left)
    (hf : testFrame s.gFrameBitmap f = false) :
    ∃ g, g < frame + left ∧ testFrame s.gFrameBitmap g = false ∧
      (∀ k, frame ≤ k → k < g → testFrame s.gFrameBitmap k = true) ∧
      (allocFrom s left frame).result = wrap (g * pageSize) ∧
      (allocFrom s left frame).state =
        { s with gFrameBitmap := setFrame s.gFrameBitmap g } := by
  induction left generalizing frame with
  | zero => omega
  | succ left ih =>
    rw [allocFrom]
    by_cases ht : testFrame s.gFrameBitmap frame = true
    · have hne : frame ≠ f := by
        rintro rfl
        rw [ht] at hf
        cases hf
      rw [if_pos ht]
      obtain ⟨g, hg, hfree, hfirst, hg'⟩ := ih (by omega : frame + 1 ≤ f) (by omega)
      refine ⟨g, by omega, hfree, fun k hk hkg => ?_, hg'⟩
      by_cases hkf : k = frame
      · rw [hkf, ht]
      · exact hfirst k (by omega) hkg
    · rw [if_neg ht]
      exact ⟨frame, by omega, Bool.eq_false_iff.2 ht, fun k hk hkf => absurd hkf (by omega), rfl,
        rfl⟩

theorem allocFrom_words (s : MemoryState) (left frame : Nat)
    (hw : w ∈ (allocFrom s left frame).words) :
    ∃ f, f < frame + left ∧ w = f / 32 := by
  induction left generalizing frame with
  | zero => cases hw
  | succ left ih =>
    rw [allocFrom] at hw
    split at hw
    · rcases List.mem_cons.1 hw with rfl | hw
      · exact ⟨frame, by omega, rfl⟩
      · obtain ⟨f, hf, rfl⟩ := ih (frame + 1) hw
        exact ⟨f, by omega, rfl⟩
    · simp only [List.mem_cons, List.not_mem_nil, or_false, or_self] at hw
      exact ⟨frame, by omega, hw⟩

/-- The two outcomes of `pmm_alloc_frame`: it takes the lowest free frame. -/
theorem pmmAllocFrame_lowest {s : MemoryState} (h : s.gTotalFrames ≤ maxFrames) :
    ((∀ f, ¬ s.Free f) ∧ (pmmAllocFrame s).result = 0 ∧ (pmmAllocFrame s).state = s) ∨
      ∃ f, s.Free f ∧ (∀ g, g < f → ¬ s.Free g) ∧ (pmmAllocFrame s).result = 4096 * f ∧
        (pmmAllocFrame s).state = { s with gFrameBitmap := setFrame s.gFrameBitmap f } := by
  simp only [maxFrames, maxPhysMemBytes, pageSize] at h
  by_cases hfree : ∃ f, s.Free f
  · obtain ⟨f, hf, ht⟩ := hfree
    obtain ⟨g, hg, hg', hfirst, hr, hs⟩ := allocFrom_some (Nat.zero_le f)
      (by omega : f < 0 + s.gTotalFrames) ht
    have hw : wrap (g * pageSize) = 4096 * g := by
      rw [wrap_of_lt (by rw [pageSize]; omega), pageSize]
      omega
    refine .inr ⟨g, ⟨by omega, hg'⟩, fun k hk hkfree => ?_, hr.trans hw, hs⟩
    have htaken := hkfree.2
    rw [hfirst k (Nat.zero_le k) hk] at htaken
    cases htaken
  · have hnone : ∀ f, ¬ s.Free f := fun f hf => hfree ⟨f, hf⟩
    refine .inl ⟨hnone, allocFrom_none fun f _ hu => ?_⟩
    by_contra hf
    exact hnone f ⟨by omega, Bool.eq_false_iff.2 hf⟩

theorem MemoryState.Sized.le_maxFrames {s : MemoryState} (h : s.Sized) :
    s.gTotalFrames ≤ maxFrames := by
  have hb := h.bounded
  have hfr := h.frames
  simp only [maxFrames, maxPhysMemBytes, pageSize]
  omega

theorem pmmAllocFrame_cases {s : MemoryState} (h : s.Sized) :
    ((∀ f, ¬ s.Free f) ∧ (pmmAllocFrame s).result = 0 ∧ (pmmAllocFrame s).state = s) ∨
      ∃ f, s.Free f ∧ (pmmAllocFrame s).result = 4096 * f ∧
        (pmmAllocFrame s).state = { s with gFrameBitmap := setFrame s.gFrameBitmap f } := by
  rcases pmmAllocFrame_lowest h.le_maxFrames with hnone | ⟨f, hf, -, hr⟩
  · exact .inl hnone
  · exact .inr ⟨f, hf, hr⟩

/-- `pmm_free_frame` of an address in a frame. -/
theorem pmmFreeFrame_state (s : MemoryState) (hf : frameIndex a < s.gTotalFrames) :
    (pmmFreeFrame s a).state =
      { s with gFrameBitmap := clearFrame s.gFrameBitmap (frameIndex a) } := by
  simp only [pmmFreeFrame, if_pos hf]

theorem MemoryState.free_setFrame (s : MemoryState) (f g : Nat) :
    MemoryState.Free { s with gFrameBitmap := setFrame s.gFrameBitmap f } g ↔ s.Free g ∧ g ≠ f := by
  simp only [Free, testFrame_setFrame, Bool.or_eq_false_iff, decide_eq_false_iff_not]
  tauto

theorem MemoryState.free_clearFrame (s : MemoryState) (hf : f < s.gTotalFrames) (g : Nat) :
    MemoryState.Free { s with gFrameBitmap := clearFrame s.gFrameBitmap f } g ↔
      s.Free g ∨ g = f := by
  simp only [Free, testFrame_clearFrame, Bool.and_eq_false_iff, Bool.not_eq_false',
    decide_eq_true_eq]
  constructor
  · rintro ⟨hg, rfl | ht⟩
    · exact .inr rfl
    · exact .inl ⟨hg, ht⟩
  · rintro (⟨hg, ht⟩ | rfl)
    · exact ⟨hg, .inr ht⟩
    · exact ⟨hf, .inl rfl⟩

/-- The pages of a range that starts and ends below 4 GiB. -/
def Covers (start size page : Nat) : Prop :=
  size ≠ 0 ∧ start / 4096 ≤ page ∧ 4096 * page < wrap (start + size)

instance : Decidable (Covers start size page) := inferInstanceAs (Decidable (_ ∧ _ ∧ _))

/-- The action gives one frame that status and leaves the others. -/
def Assigns (act : (Nat → Nat) → Nat → Nat → Nat) (v : Bool) : Prop :=
  ∀ bitmap f g, testFrame (act bitmap f) g = if f = g then v else testFrame bitmap g

theorem setFrame_assigns : Assigns setFrame true := by
  intro bitmap f g
  rw [testFrame_setFrame]
  split
  · next h => rw [decide_eq_true h, Bool.true_or]
  · next h => rw [decide_eq_false h, Bool.false_or]

theorem clearFrame_assigns : Assigns clearFrame false := by
  intro bitmap f g
  rw [testFrame_clearFrame]
  split
  · next h => rw [decide_eq_true h, Bool.not_true, Bool.false_and]
  · next h => rw [decide_eq_false h, Bool.not_false, Bool.true_and]

/-- The loop gives every frame of the range that status. -/
theorem frameLoop_testFrame {act : (Nat → Nat) → Nat → Nat → Nat} (hact : Assigns act v)
    (hs : start % 4096 = 0) (hf : fin % 4096 = 0) (hlt : fin < 4294967296) (total : Nat)
    (bitmap : Nat → Nat) (g : Nat) :
    testFrame (pageLoop
      (fun addr b => if frameIndex addr < total then act b (frameIndex addr) else b)
      start fin bitmap) g =
      if start / 4096 ≤ g ∧ g < fin / 4096 ∧ g < total then v else testFrame bitmap g := by
  let body := fun addr (b : Nat → Nat) =>
    if frameIndex addr < total then act b (frameIndex addr) else b
  let I p (b : Nat → Nat) := start / 4096 ≤ p ∧ ∀ g, testFrame b g =
    if start / 4096 ≤ g ∧ g < p ∧ g < total then v else testFrame bitmap g
  have hinit : I (start / 4096) bitmap := ⟨Nat.le_refl _, fun g => by rw [if_neg (by omega)]⟩
  have hstep : ∀ p b, p < fin / 4096 → I p b → I (p + 1) (body (4096 * p) b) := by
    intro p b _ hp
    have hidx : frameIndex (4096 * p) = p := Nat.mul_div_cancel_left p (by decide)
    have hle := hp.1
    refine ⟨Nat.le_succ_of_le hle, fun g => ?_⟩
    simp only [body, hidx]
    by_cases hpt : p < total
    · rw [if_pos hpt, hact, hp.2]
      by_cases hpg : p = g
      · rw [if_pos hpg, if_pos (by omega)]
      · rw [if_neg hpg]
        exact if_congr (by omega) rfl rfl
    · rw [if_neg hpt, hp.2]
      exact if_congr (by omega) rfl rfl
  have hgo : I (max (start / 4096) (fin / 4096)) (pageLoop body start fin bitmap) :=
    pageLoop_induct I hs hf hlt hinit hstep
  rw [hgo.2]
  exact if_congr (by omega) rfl rfl

/-- `reserve_range` and `free_range` change the frames of their range, up to the last one. -/
theorem overFrames_testFrame {s : MemoryState} (h : s.Sized)
    {act : (Nat → Nat) → Nat → Nat → Nat} (hact : Assigns act v) (ha : a < 4294967296)
    (hw : wrap (a + size) + 4095 < 4294967296) (g : Nat) :
    testFrame (overFrames act s a size).gFrameBitmap g =
      if Covers a size g ∧ g < s.gTotalFrames then v else testFrame s.gFrameBitmap g := by
  have hal := h.aligned
  have hb := h.bounded
  have hfr := h.frames
  simp only [overFrames]
  by_cases h₀ : size = 0
  · have hno : ¬ (Covers a size g ∧ g < s.gTotalFrames) := fun hc => hc.1.1 h₀
    rw [if_pos h₀, if_neg hno]
  · rw [if_neg h₀, and_page_mask ha, pageSize, alignUp_page]
    have hx : (wrap (a + size) + 4095) % 4294967296 / 4096 * 4096 =
        (wrap (a + size) + 4095) / 4096 * 4096 := by rw [Nat.mod_eq_of_lt hw]
    rw [hx, frameLoop_testFrame hact (by omega) (by split <;> omega) (by split <;> omega)]
    refine if_congr ?_ rfl rfl
    rw [Covers]
    split <;> omega

theorem reserveRange_free {s : MemoryState} (h : s.Sized) (hw : a + size + 4095 < 4294967296)
    (f : Nat) :
    (reserveRange s a size).Free f ↔
      s.Free f ∧ ¬ (size ≠ 0 ∧ a / 4096 ≤ f ∧ 4096 * f < a + size) := by
  have hsum : wrap (a + size) = a + size := wrap_of_lt (by omega)
  have ht : (reserveRange s a size).gTotalFrames = s.gTotalFrames := by
    obtain ⟨b, hb⟩ := overFrames_only setFrame s a size
    rw [reserveRange, hb]
  have hbit := overFrames_testFrame h setFrame_assigns (by omega : a < 4294967296)
    (by omega : wrap (a + size) + 4095 < 4294967296) f
  have hcov : Covers a size f ↔ size ≠ 0 ∧ a / 4096 ≤ f ∧ 4096 * f < a + size := by
    rw [Covers, hsum]
  rw [MemoryState.Free, MemoryState.Free, ht, reserveRange, hbit, ← hcov]
  split
  · next hc => simp only [Bool.true_eq_false, and_false, hc.1, not_true_eq_false]
  · next hc => tauto

theorem MemoryState.Sized.reserve {s : MemoryState} (h : s.Sized) (a size : Nat) :
    (reserveRange s a size).Sized := h.only (overFrames_only setFrame s a size)

/-- What `memory_init` keeps back: low memory, the kernel image, and what user programs use. -/
def Layout.Reserved (L : Layout) (a : Nat) : Prop :=
  a < 0x00100000 ∨ (0x00100000 ≤ a ∧ a < alignUp L.kernelEnd pageSize) ∨ UserAddress a

theorem Layout.reserved_zero (L : Layout) : L.Reserved 0 := .inl (by decide)

theorem reserveKernelMemory_free {s : MemoryState} (h : s.Sized) (L : Layout) (f : Nat) :
    (reserveKernelMemory L s).Free f ↔ s.Free f ∧ ¬ L.Reserved (4096 * f) := by
  have hu := L.below_user
  have hp := L.heap_placed
  have hk : alignUp L.kernelEnd 4096 = (L.kernelEnd + 4095) / 4096 * 4096 := by
    rw [alignUp_page, Nat.mod_eq_of_lt (by omega)]
  have himage : 1048576 < L.kernelEnd := by omega
  have h₁ := h.reserve 0 1048576
  have h₂ := h₁.reserve 1048576 (L.kernelEnd - 1048576)
  have h₃ := h₂.reserve userProgramBase userProgramMaxSize
  simp only [reserveKernelMemory, if_pos himage]
  rw [reserveRange_free h₃ (by decide), reserveRange_free h₂ (by decide),
    reserveRange_free h₁ (by omega), reserveRange_free h (by decide)]
  simp only [Layout.Reserved, UserAddress, userProgramBase, userProgramMaxSize, userStackTop,
    userStackSize, pageSize, hk, and_assoc]
  refine and_congr_right fun _ => ?_
  omega

theorem resetMemory_sized (L : Layout) (s : MemoryState) (detected : Nat) :
    (resetMemory L s detected).Sized := by
  have hb : (if maxPhysMemBytes < detected then maxPhysMemBytes else detected) ≤ 536870912 := by
    have hm : maxPhysMemBytes = 536870912 := rfl
    split <;> omega
  have ht : (resetMemory L s detected).gTotalMemoryBytes =
      alignUp (if maxPhysMemBytes < detected then maxPhysMemBytes else detected) pageSize := by
    simp only [resetMemory]
  have hf : (resetMemory L s detected).gTotalFrames =
      (resetMemory L s detected).gTotalMemoryBytes / 4096 := by simp only [resetMemory, pageSize]
  generalize (if maxPhysMemBytes < detected then maxPhysMemBytes else detected) = n at hb ht
  rw [pageSize, alignUp_page] at ht
  exact ⟨by omega, by omega, hf⟩

theorem testFrame_full (frame : Nat) : testFrame (fun _ => 0xFFFFFFFF) frame = true := by
  rw [testFrame_eq, Bitmap.bit, Nat.testBit_two_pow_sub_one (n := 32)]
  exact decide_eq_true (Nat.mod_lt _ (by decide))

theorem heapInit_frames (L : Layout) (s : MemoryState) :
    (heapInit L s).gTotalFrames = s.gTotalFrames ∧
      (heapInit L s).gFrameBitmap = s.gFrameBitmap := by
  rw [heapInit]
  split <;> exact ⟨rfl, rfl⟩

theorem mapMemory_frames (L : Layout) (s : MemoryState) :
    (mapMemory L s).gTotalFrames = s.gTotalFrames ∧
      (mapMemory L s).gFrameBitmap = s.gFrameBitmap := by
  simp only [mapMemory, and_self]

/-- The last steps of `memory_init` leave the frames alone. -/
theorem enable_free (L : Layout) (s : MemoryState) (f : Nat) :
    (heapInit L (mapMemory L s)).Free f ↔ s.Free f := by
  rw [MemoryState.Free, (heapInit_frames _ _).1, (heapInit_frames _ _).2, (mapMemory_frames _ _).1,
    (mapMemory_frames _ _).2, MemoryState.Free]

theorem enable_sized {s : MemoryState} (h : s.Sized) (L : Layout) :
    (heapInit L (mapMemory L s)).Sized := by
  have ht : (heapInit L (mapMemory L s)).gTotalMemoryBytes = s.gTotalMemoryBytes := by
    rw [heapInit_total, mapMemory_total]
  have hf : (heapInit L (mapMemory L s)).gTotalFrames = s.gTotalFrames := by
    rw [(heapInit_frames _ _).1, (mapMemory_frames _ _).1]
  constructor
  · rw [ht]
    exact h.aligned
  · rw [ht]
    exact h.bounded
  · rw [ht, hf]
    exact h.frames

/-- What `memory_init` leaves to the frame allocator. -/
theorem memoryInit_frames (hs : s.gPagingReady = false)
    (h : memoryInit L s mbMagic mbInfoAddr = some s') :
    s'.Sized ∧ ∀ f, s'.Free f → ¬ L.Reserved (4096 * f) := by
  obtain ⟨detected, s₁, h₁, rfl⟩ := memoryInit_some hs h
  have hs₁ := (resetMemory_sized L s detected).only (freeUsableMemory_only h₁)
  refine ⟨enable_sized (hs₁.only (reserveKernelMemory_only L s₁)) L, fun f hf => ?_⟩
  rw [enable_free, reserveKernelMemory_free hs₁] at hf
  exact hf.2

/-- The allocator and the frames that were handed out and not given back. -/
structure FramePool where
  memory : MemoryState
  held : Finset Nat

def FramePool.alloc (c : FramePool) : FramePool :=
  let r := pmmAllocFrame c.memory
  ⟨r.state, if r.result = 0 then c.held else insert r.result c.held⟩

def FramePool.free (c : FramePool) (physAddr : Nat) : FramePool :=
  ⟨(pmmFreeFrame c.memory physAddr).state, c.held.erase (4096 * frameIndex physAddr)⟩

/-- The runs of the allocator that free only frames they hold. -/
inductive FrameRun (s : MemoryState) : FramePool → Prop where
  | init : FrameRun s ⟨s, ∅⟩
  | alloc : FrameRun s c → FrameRun s c.alloc
  | free : FrameRun s c → 4096 * frameIndex a ∈ c.held → FrameRun s (c.free a)

/-- Free frames are not reserved; frames that are held are in memory, taken and not reserved. -/
structure FramePool.Sound (L : Layout) (c : FramePool) : Prop where
  sized : c.memory.Sized
  free : ∀ f, c.memory.Free f → ¬ L.Reserved (4096 * f)
  held : ∀ a, a ∈ c.held → ∃ f, a = 4096 * f ∧ f < c.memory.gTotalFrames ∧
    ¬ c.memory.Free f ∧ ¬ L.Reserved (4096 * f)

theorem FramePool.Sound.alloc {c : FramePool} (h : c.Sound L) : c.alloc.Sound L := by
  rcases pmmAllocFrame_cases h.sized with ⟨-, hr, hst⟩ | ⟨f, hf, hr, hst⟩
  · have hc : c.alloc = c := by
      simp only [FramePool.alloc, hr, hst, if_true]
    rw [hc]
    exact h
  · have hm : c.alloc.memory = { c.memory with
        gFrameBitmap := setFrame c.memory.gFrameBitmap f } := hst
    constructor
    case sized =>
      rw [hm]
      exact h.sized.only ⟨_, rfl⟩
    case free =>
      intro g hg
      rw [hm, MemoryState.free_setFrame] at hg
      exact h.free g hg.1
    case held =>
      intro a ha
      have hin : a = 4096 * f ∨ a ∈ c.held := by
        simp only [FramePool.alloc, hr] at ha
        split at ha
        · exact .inr ha
        · exact Finset.mem_insert.1 ha
      rcases hin with rfl | hin
      · refine ⟨f, rfl, ?_, ?_, h.free f hf⟩
        · rw [hm]
          exact hf.1
        · rw [hm, MemoryState.free_setFrame]
          exact fun hn => hn.2 rfl
      · obtain ⟨g, hg, hlt, hn, hres⟩ := h.held a hin
        refine ⟨g, hg, ?_, ?_, hres⟩
        · rw [hm]
          exact hlt
        · rw [hm, MemoryState.free_setFrame]
          exact fun hn' => hn hn'.1

theorem FramePool.Sound.free_held {c : FramePool} (h : c.Sound L)
    (ha : 4096 * frameIndex a ∈ c.held) : (c.free a).Sound L := by
  obtain ⟨f, hf, hlt, hn, hres⟩ := h.held _ ha
  have hfi : frameIndex a = f := by omega
  rw [← hfi] at hlt hn hres
  have hm := pmmFreeFrame_state c.memory hlt
  change (c.free a).memory = _ at hm
  constructor
  case sized =>
    rw [hm]
    exact h.sized.only ⟨_, rfl⟩
  case free =>
    intro g hg
    rw [hm, MemoryState.free_clearFrame _ hlt] at hg
    rcases hg with hg | rfl
    · exact h.free g hg
    · exact hres
  case held =>
    intro b hb
    obtain ⟨hne, hb⟩ := Finset.mem_erase.1 hb
    obtain ⟨g, rfl, hg, hn', hres'⟩ := h.held b hb
    refine ⟨g, rfl, ?_, ?_, hres'⟩
    · rw [hm]
      exact hg
    · rw [hm, MemoryState.free_clearFrame _ hlt]
      rintro (hf' | rfl)
      · exact hn' hf'
      · exact hne rfl

theorem FrameRun.sound (h : FrameRun s c) (hs : FramePool.Sound L ⟨s, ∅⟩) : c.Sound L := by
  induction h with
  | init => exact hs
  | alloc _ ih => exact ih.alloc
  | free _ ha ih => exact ih.free_held ha

/-- What the frame allocator promises in a state: a frame from `pmm_alloc_frame` is a new one that
is not reserved, `0` means that there is none, each call changes one frame or none, and no call
leaves the bitmap. -/
structure FramesSafe (L : Layout) (c : FramePool) : Prop where
  frames_le : c.memory.gTotalFrames ≤ maxFrames
  alloc_zero : (pmmAllocFrame c.memory).result = 0 ↔
    ∀ f, f < c.memory.gTotalFrames → testFrame c.memory.gFrameBitmap f = true
  alloc_frame : (pmmAllocFrame c.memory).result ≠ 0 →
    (pmmAllocFrame c.memory).result % pageSize = 0 ∧
    (pmmAllocFrame c.memory).result < c.memory.gTotalMemoryBytes ∧
    (pmmAllocFrame c.memory).result ∉ c.held ∧ ¬ L.Reserved (pmmAllocFrame c.memory).result
  alloc_changes : (pmmAllocFrame c.memory).result ≠ 0 → ∀ f,
    testFrame (pmmAllocFrame c.memory).state.gFrameBitmap f ≠ testFrame c.memory.gFrameBitmap f ↔
      4096 * f = (pmmAllocFrame c.memory).result
  alloc_fails : (pmmAllocFrame c.memory).result = 0 → (pmmAllocFrame c.memory).state = c.memory
  free_changes : ∀ a, 4096 * frameIndex a ∈ c.held → ∀ f,
    testFrame (pmmFreeFrame c.memory a).state.gFrameBitmap f ≠ testFrame c.memory.gFrameBitmap f ↔
      f = frameIndex a
  alloc_words : ∀ w, w ∈ (pmmAllocFrame c.memory).words → w < frameBitmapWords
  free_words : ∀ a w, w ∈ (pmmFreeFrame c.memory a).words → w < frameBitmapWords

theorem word_in_bitmap {s : MemoryState} (h : s.Sized) (hf : f < s.gTotalFrames) :
    f / 32 < frameBitmapWords := by
  have hw : frameBitmapWords = 4096 := rfl
  have hb := h.bounded
  have hfr := h.frames
  omega

theorem setFrame_changes (bitmap : Nat → Nat) (hf : testFrame bitmap f = false) (g : Nat) :
    testFrame (setFrame bitmap f) g ≠ testFrame bitmap g ↔ g = f := by
  rw [testFrame_setFrame]
  constructor
  · intro hne
    by_contra hgf
    rw [decide_eq_false (Ne.symm hgf), Bool.false_or] at hne
    exact hne rfl
  · rintro rfl
    rw [hf, decide_eq_true rfl]
    decide

theorem clearFrame_changes (bitmap : Nat → Nat) (hf : testFrame bitmap f = true) (g : Nat) :
    testFrame (clearFrame bitmap f) g ≠ testFrame bitmap g ↔ g = f := by
  rw [testFrame_clearFrame]
  constructor
  · intro hne
    by_contra hgf
    rw [decide_eq_false (Ne.symm hgf), Bool.not_false, Bool.true_and] at hne
    exact hne rfl
  · rintro rfl
    rw [hf, decide_eq_true rfl]
    decide

/-- The outcomes of an allocation; frame 0 is reserved, so the answer 0 is never a frame. -/
theorem FramePool.Sound.alloc_cases {c : FramePool} (h : c.Sound L) :
    ((∀ f, ¬ c.memory.Free f) ∧ (pmmAllocFrame c.memory).result = 0 ∧
        (pmmAllocFrame c.memory).state = c.memory) ∨
      ∃ f, c.memory.Free f ∧ (pmmAllocFrame c.memory).result = 4096 * f ∧
        (pmmAllocFrame c.memory).result ≠ 0 ∧
        (pmmAllocFrame c.memory).state =
          { c.memory with gFrameBitmap := setFrame c.memory.gFrameBitmap f } := by
  rcases pmmAllocFrame_cases h.sized with hnone | ⟨f, hf, hr, hst⟩
  · exact .inl hnone
  · have hne : f ≠ 0 := by
      rintro rfl
      exact h.free 0 hf L.reserved_zero
    exact .inr ⟨f, hf, hr, by omega, hst⟩

/-- A held frame is marked in the bitmap. -/
theorem FramePool.Sound.held_taken {c : FramePool} (h : c.Sound L) (ha : a ∈ c.held) :
    ∃ f, a = 4096 * f ∧ f < c.memory.gTotalFrames ∧
      testFrame c.memory.gFrameBitmap f = true := by
  obtain ⟨f, hf, hlt, hn, -⟩ := h.held _ ha
  refine ⟨f, hf, hlt, ?_⟩
  by_contra ht
  exact hn ⟨hlt, Bool.eq_false_iff.2 ht⟩

theorem FramePool.Sound.framesSafe {c : FramePool} (h : c.Sound L) : FramesSafe L c := by
  have hb := h.sized.bounded
  have hal := h.sized.aligned
  have hfr := h.sized.frames
  have hmax : maxFrames = 131072 := rfl
  have hzero : (∀ f, ¬ c.memory.Free f) ↔
      ∀ f, f < c.memory.gTotalFrames → testFrame c.memory.gFrameBitmap f = true := by
    simp only [MemoryState.Free, not_and, Bool.not_eq_false]
  constructor
  case frames_le => omega
  case alloc_zero =>
    rw [← hzero]
    rcases h.alloc_cases with ⟨hnone, hr, -⟩ | ⟨f, hf, -, hr, -⟩
    · exact iff_of_true hr hnone
    · exact iff_of_false hr fun hnone => hnone f hf
  case alloc_frame =>
    intro hr
    rcases h.alloc_cases with ⟨-, hr', -⟩ | ⟨f, hf, hr', -, -⟩
    · exact absurd hr' hr
    · rw [hr', pageSize]
      refine ⟨Nat.mul_mod_right _ _, ?_, ?_, h.free f hf⟩
      · have := hf.1
        omega
      · intro hin
        obtain ⟨g, hg, -, ht⟩ := h.held_taken hin
        have hgf : g = f := by omega
        rw [hgf, hf.2] at ht
        cases ht
  case alloc_changes =>
    intro hr g
    rcases h.alloc_cases with ⟨-, hr', -⟩ | ⟨f, hf, hr', -, hst⟩
    · exact absurd hr' hr
    · rw [hst, hr', setFrame_changes _ hf.2]
      omega
  case alloc_fails =>
    intro hr
    rcases h.alloc_cases with ⟨-, -, hst⟩ | ⟨f, -, -, hr', -⟩
    · exact hst
    · exact absurd hr hr'
  case free_changes =>
    intro a ha g
    obtain ⟨f, hf, hlt, ht⟩ := h.held_taken ha
    have hfi : frameIndex a = f := by omega
    rw [hfi, pmmFreeFrame_state _ (hfi ▸ hlt), hfi, clearFrame_changes _ ht]
  case alloc_words =>
    intro w hw
    obtain ⟨f, hf, rfl⟩ := allocFrom_words _ _ _ hw
    exact word_in_bitmap h.sized (by omega)
  case free_words =>
    intro a w hw
    simp only [pmmFreeFrame] at hw
    split at hw
    · next hlt =>
      rw [List.mem_singleton.1 hw]
      exact word_in_bitmap h.sized hlt
    · cases hw

/-- After `memory_init` the frame allocator is safe in every run. -/
theorem frames_safe_in_every_run (hs : s.gPagingReady = false)
    (hinit : memoryInit L s mbMagic mbInfoAddr = some s₀) (hrun : FrameRun s₀ c) :
    FramesSafe L c := by
  obtain ⟨hsized, hfree⟩ := memoryInit_frames hs hinit
  have hstart : FramePool.Sound L ⟨s₀, ∅⟩ := by
    refine ⟨hsized, hfree, fun a ha => ?_⟩
    exact absurd ha (Finset.notMem_empty a)
  exact (hrun.sound hstart).framesSafe

theorem frames_safe_after_alloc :
    ∃ s₀, memoryInit Layout.sample bootMemory 0 0 = some s₀ ∧
      FramesSafe Layout.sample (FramePool.alloc ⟨s₀, ∅⟩) := by
  obtain ⟨s₀, hs⟩ := Option.isSome_iff_exists.1 (memoryInit_default Layout.sample bootMemory rfl)
  exact ⟨s₀, hs, frames_safe_in_every_run rfl hs (.alloc .init)⟩

end KernelCustom
