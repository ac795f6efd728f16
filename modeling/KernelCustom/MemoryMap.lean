import KernelCustom.FrameAllocator

namespace KernelCustom
open Word32 ByteStore BlockTiling
set_option autoImplicit true

def entryAddrHigh (m : Mem) (entry : Nat) : Nat := load32 m (entry + 8)
def entryLenHigh (m : Mem) (entry : Nat) : Nat := load32 m (entry + 16)

/-- An entry of a Multiboot memory map: a region with 64-bit base and length, and its type. -/
structure MmapEntry where
  size : Nat
  base : Nat
  length : Nat
  type : Nat
  size_ge : 20 ≤ size
  size_lt : size < 4294967292
  base_lt : base < 18446744073709551616
  length_lt : length < 18446744073709551616
  type_lt : type < 4294967296

def MmapEntry.addrLow (e : MmapEntry) : Nat := e.base % 4294967296
def MmapEntry.lenLow (e : MmapEntry) : Nat := e.length % 4294967296

/-- The entry lies at that address. -/
structure MmapEntry.At (e : MmapEntry) (m : Mem) (a : Nat) : Prop where
  size : entrySize m a = e.size
  addrLow : entryAddrLow m a = e.addrLow
  addrHigh : entryAddrHigh m a = e.base / 4294967296
  lenLow : entryLenLow m a = e.lenLow
  lenHigh : entryLenHigh m a = e.length / 4294967296
  type : entryType m a = e.type

/-- The entries lie one behind the other, each `size + 4` bytes long. -/
def EntriesFrom (m : Mem) : Nat → List MmapEntry → Prop
  | _, [] => True
  | a, e :: es => e.At m a ∧ EntriesFrom m (a + (e.size + 4)) es

def mapBytes (es : List MmapEntry) : Nat := (es.map fun e => e.size + 4).sum

/-- The boot loader hands over that memory map, outside the memory of the kernel image. -/
structure MapGiven (L : Layout) (m : Mem) (mbInfoAddr : Nat) (es : List MmapEntry) : Prop where
  info : mbInfoAddr ≠ 0
  info_placed : mbInfoAddr + 52 ≤ 0x00100000 ∨ L.kernelEnd ≤ mbInfoAddr
  flags : mbFlags m mbInfoAddr &&& (1 <<< 6) ≠ 0
  length : mbMmapLength m mbInfoAddr = mapBytes es
  map_placed : mbMmapAddr m mbInfoAddr + mapBytes es ≤ 0x00100000 ∨
    L.kernelEnd ≤ mbMmapAddr m mbInfoAddr
  map_lt : mbMmapAddr m mbInfoAddr + mapBytes es ≤ 4294967296
  entries : EntriesFrom m (mbMmapAddr m mbInfoAddr) es

theorem mapBytes_cons (e : MmapEntry) (es : List MmapEntry) :
    mapBytes (e :: es) = e.size + 4 + mapBytes es := by
  rw [mapBytes, List.map_cons, List.sum_cons, mapBytes]

theorem MmapEntry.At.same {e : MmapEntry} (h : e.At m a) (hs : SameOn m m' a (a + 24)) :
    e.At m' a := by
  constructor
  · exact (hs.load32 (Nat.le_refl a) (by omega)).trans h.size
  · exact (hs.load32 (by omega) (by omega)).trans h.addrLow
  · exact (hs.load32 (by omega) (by omega)).trans h.addrHigh
  · exact (hs.load32 (by omega) (by omega)).trans h.lenLow
  · exact (hs.load32 (by omega) (by omega)).trans h.lenHigh
  · exact (hs.load32 (by omega) (by omega)).trans h.type

theorem EntriesFrom.same {es : List MmapEntry} (h : EntriesFrom m a es)
    (hs : SameOn m m' a (a + mapBytes es)) : EntriesFrom m' a es := by
  induction es generalizing a with
  | nil => trivial
  | cons e es ih =>
    have hsize := e.size_ge
    rw [mapBytes_cons] at hs
    exact ⟨h.1.same (hs.mono (Nat.le_refl a) (by omega)), ih h.2 (hs.mono (by omega) (by omega))⟩

/-- The map is still there when only the kernel image changes. -/
theorem MapGiven.same (h : MapGiven L m mb es)
    (hs : ∀ x, x < 0x00100000 ∨ L.kernelEnd ≤ x → m' x = m x) : MapGiven L m' mb es := by
  have hp := h.info_placed
  have hinfo : SameOn m m' mb (mb + 52) := fun x _ _ => hs x (by omega)
  have hflags : mbFlags m' mb = mbFlags m mb := hinfo.load32 (Nat.le_refl mb) (by omega)
  have hlen : mbMmapLength m' mb = mbMmapLength m mb := hinfo.load32 (by omega) (by omega)
  have haddr : mbMmapAddr m' mb = mbMmapAddr m mb := hinfo.load32 (by omega) (by omega)
  have hm := h.map_placed
  constructor
  case info => exact h.info
  case info_placed => exact hp
  case flags =>
    rw [hflags]
    exact h.flags
  case length =>
    rw [hlen]
    exact h.length
  case map_placed =>
    rw [haddr]
    exact hm
  case map_lt =>
    rw [haddr]
    exact h.map_lt
  case entries =>
    rw [haddr]
    exact h.entries.same fun x _ _ => hs x (by omega)

theorem MapGiven.hasMmap (h : MapGiven L m mb es) (hne : es ≠ []) : hasMmap m mb = true := by
  have hlen : mbMmapLength m mb ≠ 0 := by
    rw [h.length]
    cases es with
    | nil => exact absurd rfl hne
    | cons e es =>
      rw [mapBytes_cons]
      omega
  exact decide_eq_true ⟨h.flags, hlen⟩

/-- The rule for the loops over a memory map: an invariant over the entries visited so far. -/
theorem mmapLoop_entries (h : MapGiven L m mb es) {visit : Nat → σ → σ}
    (I : List MmapEntry → σ → Prop)
    (hstep : ∀ past a e acc, e.At m a → I past acc →
      I (past ++ [e]) (if e.type = 1 then visit a acc else acc))
    (hinit : I [] acc) : ∃ acc', mmapLoop m mb visit 4294967296 0 acc = some acc' ∧ I es acc' := by
  suffices hgo : ∀ left past fuel offset acc, EntriesFrom m (mbMmapAddr m mb + offset) left →
      offset + mapBytes left = mbMmapLength m mb → left.length < fuel → I past acc →
      ∃ acc', mmapLoop m mb visit fuel offset acc = some acc' ∧ I (past ++ left) acc' by
    have hlen : es.length ≤ mapBytes es := by
      clear h hgo
      induction es with
      | nil => exact Nat.zero_le _
      | cons e es ih =>
        rw [mapBytes_cons, List.length_cons]
        omega
    have hlt := load32_lt m (mb + 44)
    have hl : mbMmapLength m mb = mapBytes es := h.length
    rw [mbMmapLength] at hl
    exact hgo es [] 4294967296 0 acc h.entries (by rw [h.length, Nat.zero_add]) (by omega) hinit
  intro left
  induction left with
  | nil =>
    intro past fuel offset acc _ hoff hfuel hI
    obtain ⟨fuel, rfl⟩ : ∃ f, fuel = f + 1 :=
      ⟨fuel - 1, by simp only [List.length_nil] at hfuel; omega⟩
    have hend : ¬ offset < mbMmapLength m mb := by
      rw [← hoff, mapBytes]
      exact Nat.lt_irrefl _
    rw [mmapLoop, if_neg hend, List.append_nil]
    exact ⟨acc, rfl, hI⟩
  | cons e left ih =>
    intro past fuel offset acc hat hoff hfuel hI
    obtain ⟨fuel, rfl⟩ : ∃ f, fuel = f + 1 := ⟨fuel - 1, by omega⟩
    have hml := h.map_lt
    have hlt := load32_lt m (mb + 44)
    have hsz := e.size_ge
    have hsl := e.size_lt
    rw [← h.length] at hml
    have hmb : mbMmapLength m mb = load32 m (mb + 44) := rfl
    rw [mapBytes_cons] at hoff
    rw [List.length_cons] at hfuel
    have hin : offset < mbMmapLength m mb := by omega
    have hentry : wrap (mbMmapAddr m mb + offset) = mbMmapAddr m mb + offset :=
      wrap_of_lt (by omega)
    have hlen : wrap (entrySize m (mbMmapAddr m mb + offset) + 4) = e.size + 4 := by
      rw [hat.1.size]
      exact wrap_of_lt (by omega)
    have hnext : wrap (offset + (e.size + 4)) = offset + (e.size + 4) := wrap_of_lt (by omega)
    have hne : e.size + 4 ≠ 0 := by omega
    rw [mmapLoop, if_pos hin]
    simp only [hentry, hlen, hat.1.type, if_neg hne, hnext]
    have hrest := ih (past ++ [e]) fuel (offset + (e.size + 4)) _
      (by rw [← Nat.add_assoc]; exact hat.2) (by omega) (by omega) (hstep past _ e acc hat.1 hI)
    rw [List.append_assoc] at hrest
    exact hrest

/-- One usable entry clears the frames that its low words cover. -/
theorem freeEntry_testFrame {s : MemoryState} (h : s.Sized) (m : Mem) (a p : Nat) :
    testFrame (freeEntry m a s).gFrameBitmap p =
      if Covers (entryAddrLow m a) (entryLenLow m a) p ∧ p < s.gTotalFrames then false
      else testFrame s.gFrameBitmap p := by
  have hal := h.aligned
  have hb := h.bounded
  have hfr := h.frames
  have hlt : entryAddrLow m a < 4294967296 := load32_lt _ _
  simp only [freeEntry]
  generalize entryAddrLow m a = start at hlt ⊢
  generalize entryLenLow m a = size
  by_cases hstart : start < s.gTotalMemoryBytes
  · rw [if_pos hstart]
    by_cases hcut : s.gTotalMemoryBytes < wrap (start + size)
    · have hsum : start + (s.gTotalMemoryBytes - start) = s.gTotalMemoryBytes := by omega
      have hw : wrap (start + (s.gTotalMemoryBytes - start)) = s.gTotalMemoryBytes := by
        rw [hsum]
        exact wrap_of_lt (by omega)
      have hsize : size ≠ 0 := by
        rintro rfl
        rw [Nat.add_zero, wrap_of_lt hlt] at hcut
        omega
      rw [if_pos hcut, freeRange, overFrames_testFrame h clearFrame_assigns hlt (by omega)]
      refine if_congr ?_ rfl rfl
      rw [Covers, Covers, hw]
      omega
    · rw [if_neg hcut, freeRange, overFrames_testFrame h clearFrame_assigns hlt (by omega)]
  · have hno : ¬ (Covers start size p ∧ p < s.gTotalFrames) := by
      rw [Covers]
      omega
    rw [if_neg hstart, if_neg hno]

/-- The page is in the range that the low words of a usable entry give. -/
def Claimed (es : List MmapEntry) (p : Nat) : Prop :=
  ∃ e ∈ es, e.type = 1 ∧ Covers e.addrLow e.lenLow p

theorem claimed_append (past : List MmapEntry) (e : MmapEntry) (p : Nat) :
    Claimed (past ++ [e]) p ↔ Claimed past p ∨ e.type = 1 ∧ Covers e.addrLow e.lenLow p := by
  constructor
  · rintro ⟨e', he, h⟩
    rcases List.mem_append.1 he with he | he
    · exact .inl ⟨e', he, h⟩
    · rw [List.mem_singleton.1 he] at h
      exact .inr h
  · rintro (⟨e', he, h⟩ | h)
    · exact ⟨e', List.mem_append_left _ he, h⟩
    · exact ⟨e, List.mem_append_right _ (List.mem_singleton.2 rfl), h⟩

theorem freeUsableMemory_map {s : MemoryState} (h : MapGiven L s.mem mb es) (hne : es ≠ [])
    (hs : s.Sized) :
    ∃ s', freeUsableMemory s 0x2BADB002 mb = some s' ∧ ∀ p,
      testFrame s'.gFrameBitmap p = false ↔
        testFrame s.gFrameBitmap p = false ∨ p < s.gTotalFrames ∧ Claimed es p := by
  let I (past : List MmapEntry) (s' : MemoryState) := OnlyFrames s s' ∧ ∀ p,
    testFrame s'.gFrameBitmap p = false ↔
      testFrame s.gFrameBitmap p = false ∨ p < s.gTotalFrames ∧ Claimed past p
  have hinit : I [] s := by
    refine ⟨.refl s, fun p => ?_⟩
    constructor
    · exact .inl
    · rintro (hp | ⟨-, e, he, -⟩)
      · exact hp
      · cases he
  have hstep : ∀ past a e s', MmapEntry.At e s.mem a → I past s' →
      I (past ++ [e]) (if e.type = 1 then freeEntry s.mem a s' else s') := by
    rintro past a e s' hat ⟨ho, hI⟩
    have hsame : s'.gTotalFrames = s.gTotalFrames := by
      obtain ⟨b, rfl⟩ := ho
      rfl
    by_cases ht : e.type = 1
    · rw [if_pos ht]
      refine ⟨ho.trans (freeEntry_only _ _ _), fun p => ?_⟩
      rw [freeEntry_testFrame (hs.only ho), hat.addrLow, hat.lenLow, hsame, claimed_append]
      split
      · next hc => exact iff_of_true rfl (.inr ⟨hc.2, .inr ⟨ht, hc.1⟩⟩)
      · next hc =>
        rw [hI p]
        tauto
    · rw [if_neg ht]
      refine ⟨ho, fun p => ?_⟩
      rw [hI p, claimed_append]
      tauto
  obtain ⟨s', he, -, hs'⟩ := mmapLoop_entries h I hstep hinit
  refine ⟨s', ?_, hs'⟩
  rw [freeUsableMemory, if_pos ⟨rfl, h.info⟩, if_pos (h.hasMmap hne)]
  exact he

/-- The detected size reaches past the low words of every usable entry. -/
theorem detectMemoryBytes_map (h : MapGiven L m mb es) (hne : es ≠ []) :
    ∃ detected, detectMemoryBytes m 0x2BADB002 mb = some detected ∧
      ∀ e, e ∈ es → e.type = 1 → wrap (e.addrLow + e.lenLow) ≤ detected := by
  let I (past : List MmapEntry) (maxEnd : Nat) :=
    ∀ e, e ∈ past → e.type = 1 → wrap (e.addrLow + e.lenLow) ≤ maxEnd
  have hstep : ∀ past a e maxEnd, MmapEntry.At e m a → I past maxEnd →
      I (past ++ [e]) (if e.type = 1 then raiseEnd m a maxEnd else maxEnd) := by
    intro past a e maxEnd hat hI e' he' ht'
    have hraise : e.type = 1 → wrap (e.addrLow + e.lenLow) ≤ raiseEnd m a maxEnd := by
      intro _
      rw [raiseEnd, hat.addrLow, hat.lenLow]
      split <;> omega
    have hkeep : maxEnd ≤ if e.type = 1 then raiseEnd m a maxEnd else maxEnd := by
      rw [raiseEnd]
      split
      · split <;> omega
      · exact Nat.le_refl _
    rcases List.mem_append.1 he' with he' | he'
    · exact (hI e' he' ht').trans hkeep
    · have he := List.mem_singleton.1 he'
      subst he
      rw [if_pos ht']
      exact hraise ht'
  have hinit : I [] 0 := fun e he _ => by cases he
  obtain ⟨maxEnd, he, hI⟩ := mmapLoop_entries h I hstep hinit
  refine ⟨if maxEnd ≠ 0 then maxEnd else detectByFields m mb, ?_, ?_⟩
  · have hmagic : ¬ (0x2BADB002 ≠ 0x2BADB002 ∨ mb = 0) := by
      have := h.info
      omega
    rw [detectMemoryBytes, if_neg hmagic, if_pos (h.hasMmap hne), he]
    rfl
  · intro e hmem ht
    have hle := hI e hmem ht
    split
    · exact hle
    · omega

theorem resetMemory_apply (L : Layout) (s : MemoryState) (detected : Nat)
    (hx : x < 0x00100000 ∨ L.kernelEnd ≤ x) : (resetMemory L s detected).mem x = s.mem x := by
  have hd := L.directory_placed
  have ht := L.tables_placed
  have hu := L.below_user
  have hm : (resetMemory L s detected).mem =
      memset (memset s.mem L.gPageDirectory 0 4096) L.gPageTables 0 131072 := by
    simp only [resetMemory]
  rw [hm, memset_apply _ _ _ (by omega), if_neg (by omega), memset_apply _ _ _ (by omega),
    if_neg (by omega)]

theorem resetMemory_full (L : Layout) (s : MemoryState) (detected : Nat) :
    (resetMemory L s detected).gFrameBitmap = fun _ => 0xFFFFFFFF := by simp only [resetMemory]

/-- Every page below 512 MiB that starts below the detected size has a frame. -/
theorem resetMemory_frames (L : Layout) (s : MemoryState) (hp : p < maxFrames)
    (hd : 4096 * p < detected) : p < (resetMemory L s detected).gTotalFrames := by
  have hm : maxPhysMemBytes = 536870912 := rfl
  have hmax : maxFrames = 131072 := rfl
  have hf : (resetMemory L s detected).gTotalFrames =
      alignUp (if maxPhysMemBytes < detected then maxPhysMemBytes else detected) 4096 / 4096 := by
    simp only [resetMemory, pageSize]
  rw [hmax] at hp
  rw [hf, alignUp_page]
  by_cases hcut : maxPhysMemBytes < detected
  · rw [if_pos hcut]
    exact hp
  · rw [if_neg hcut, Nat.mod_eq_of_lt (by omega)]
    omega

theorem forPages_keeps {body : Nat → σ → σ} (P : σ → Prop)
    (hstep : ∀ addr s, P s → P (body addr s)) (hP : P s) (fin fuel addr : Nat) :
    P (forPages body fin fuel addr s) := by
  induction fuel generalizing addr s with
  | zero => exact hP
  | succ fuel ih =>
    rw [forPages]
    split
    · exact ih (hstep addr s hP) _
    · exact hP

/-- A frame that is taken stays so under `reserve_range`. -/
theorem reserveRange_keeps (ht : testFrame s.gFrameBitmap p = true) (a size : Nat) :
    testFrame (reserveRange s a size).gFrameBitmap p = true := by
  rw [reserveRange, overFrames]
  split
  · exact ht
  · apply forPages_keeps (fun bitmap => testFrame bitmap p = true) _ ht
    intro addr bitmap h
    split
    · rw [testFrame_setFrame, h, Bool.or_true]
    · exact h

theorem reserveKernelMemory_keeps (L : Layout) (ht : testFrame s.gFrameBitmap p = true) :
    testFrame (reserveKernelMemory L s).gFrameBitmap p = true := by
  simp only [reserveKernelMemory]
  have hlow := reserveRange_keeps ht 0x00000000 0x00100000
  apply reserveRange_keeps
  apply reserveRange_keeps
  split
  · exact reserveRange_keeps hlow _ _
  · exact hlow

/-- The free frames after `memory_init` with a memory map. -/
theorem memoryInit_map {s : MemoryState} (hs : s.gPagingReady = false)
    (hmap : MapGiven L s.mem mb es) (hne : es ≠ []) :
    ∃ s', memoryInit L s 0x2BADB002 mb = some s' ∧ ∀ p,
      (testFrame s'.gFrameBitmap p = false ↔
        p < maxFrames ∧ Claimed es p ∧ ¬ L.Reserved (4096 * p)) ∧
      (testFrame s'.gFrameBitmap p = false → p < s'.gTotalFrames) := by
  obtain ⟨detected, hdet, hends⟩ := detectMemoryBytes_map hmap hne
  have hreset : MapGiven L (resetMemory L s detected).mem mb es :=
    hmap.same fun x hx => resetMemory_apply L s detected hx
  have hsized := resetMemory_sized L s detected
  obtain ⟨s₁, hfree, hs₁⟩ := freeUsableMemory_map hreset hne hsized
  have hframes : ∀ p, p < maxFrames → Claimed es p →
      p < (resetMemory L s detected).gTotalFrames := by
    rintro p hp ⟨e, he, ht, -, -, hlt⟩
    have := hends e he ht
    exact resetMemory_frames L s hp (by omega)
  have honly := freeUsableMemory_only hfree
  have hsized₁ := hsized.only honly
  have htotal : s₁.gTotalFrames = (resetMemory L s detected).gTotalFrames := by
    obtain ⟨b, hb⟩ := honly
    rw [hb]
  refine ⟨heapInit L (mapMemory L (reserveKernelMemory L s₁)), ?_, fun p => ?_⟩
  · simp only [memoryInit, hs, Bool.false_eq_true, if_false, hdet, hfree, Option.bind_eq_bind,
      Option.bind_some]
  · have htaken : testFrame (reserveKernelMemory L s₁).gFrameBitmap p = false →
        testFrame s₁.gFrameBitmap p = false := by
      intro hp
      by_contra hn
      rw [reserveKernelMemory_keeps L (eq_true_of_ne_false hn)] at hp
      cases hp
    have hclaimed : testFrame s₁.gFrameBitmap p = false ↔ p < s₁.gTotalFrames ∧ Claimed es p := by
      rw [hs₁, htotal, or_iff_right]
      intro hp
      rw [resetMemory_full, testFrame_full] at hp
      cases hp
    have hsame : (reserveKernelMemory L s₁).gTotalFrames = s₁.gTotalFrames := by
      obtain ⟨b, hb⟩ := reserveKernelMemory_only L s₁
      rw [hb]
    have hres := reserveKernelMemory_free hsized₁ L p
    rw [(heapInit_frames _ _).1, (heapInit_frames _ _).2, (mapMemory_frames _ _).1,
      (mapMemory_frames _ _).2, hsame]
    refine ⟨⟨fun hp => ?_, ?_⟩, fun hp => (hclaimed.1 (htaken hp)).1⟩
    · obtain ⟨hlt, hc⟩ := hclaimed.1 (htaken hp)
      exact ⟨Nat.lt_of_lt_of_le hlt hsized₁.le_maxFrames, hc, (hres.1 ⟨hsame ▸ hlt, hp⟩).2⟩
    · rintro ⟨hlt, hc, hnot⟩
      have hin : p < s₁.gTotalFrames := by
        rw [htotal]
        exact hframes p hlt hc
      exact (hres.2 ⟨⟨hin, hclaimed.2 ⟨hin, hc⟩⟩, hnot⟩).2

/-- Every byte of the page lies in a usable region. -/
def PageUsable (es : List MmapEntry) (p : Nat) : Prop :=
  ∀ x, 4096 * p ≤ x → x < 4096 * (p + 1) →
    ∃ e ∈ es, e.type = 1 ∧ e.base ≤ x ∧ x < e.base + e.length

/-- A page that the low words of the entry cover although the region need not hold all of it: the
region starts at 4 GiB or above, or the page is cut by the start or by the end. -/
def MmapEntry.Loose (e : MmapEntry) (p : Nat) : Prop :=
  Covers e.addrLow e.lenLow p ∧
    (4294967296 ≤ e.base ∨ (p = e.addrLow / 4096 ∧ e.addrLow % 4096 ≠ 0) ∨
      (p = wrap (e.addrLow + e.lenLow) / 4096 ∧ wrap (e.addrLow + e.lenLow) % 4096 ≠ 0))

/-- A page that is covered and not cut lies in the region. -/
theorem MmapEntry.covers_inside {e : MmapEntry} (hc : Covers e.addrLow e.lenLow p)
    (hl : ¬ e.Loose p) : e.base ≤ 4096 * p ∧ 4096 * (p + 1) ≤ e.base + e.length := by
  have hcut : ¬ (4294967296 ≤ e.base ∨ (p = e.addrLow / 4096 ∧ e.addrLow % 4096 ≠ 0) ∨
      (p = wrap (e.addrLow + e.lenLow) / 4096 ∧ wrap (e.addrLow + e.lenLow) % 4096 ≠ 0)) :=
    fun h => hl ⟨hc, h⟩
  obtain ⟨-, hlo, hhi⟩ := hc
  have hbase : e.addrLow = e.base := Nat.mod_eq_of_lt (by omega)
  have hlen : e.lenLow ≤ e.length := Nat.mod_le _ _
  have hlt : e.lenLow < 4294967296 := Nat.mod_lt _ (by decide)
  rw [wrap] at hcut hhi
  omega

/-- Only usable memory is free exactly when no region that is cut or lies above 4 GiB lays claim
to a page with other bytes in it. -/
theorem only_usable_frames_free_iff {s : MemoryState} (hs : s.gPagingReady = false)
    (hmap : MapGiven L s.mem mb es) (hne : es ≠ []) :
    ∃ s', memoryInit L s 0x2BADB002 mb = some s' ∧
      ((∀ p, testFrame s'.gFrameBitmap p = false → PageUsable es p) ↔
        ∀ e ∈ es, e.type = 1 → ∀ p, p < maxFrames → ¬ L.Reserved (4096 * p) → e.Loose p →
          PageUsable es p) := by
  obtain ⟨s', hinit, hfree⟩ := memoryInit_map hs hmap hne
  refine ⟨s', hinit, ?_, ?_⟩
  · intro hall e he ht p hp hres hl
    exact hall p ((hfree p).1.2 ⟨hp, ⟨e, he, ht, hl.1⟩, hres⟩)
  · intro hcond p hp
    obtain ⟨hlt, ⟨e, he, ht, hc⟩, hres⟩ := (hfree p).1.1 hp
    by_cases hl : e.Loose p
    · exact hcond e he ht p hlt hres hl
    · obtain ⟨hlo, hhi⟩ := MmapEntry.covers_inside hc hl
      intro x hx hx'
      exact ⟨e, he, ht, by omega, by omega⟩

/-- A usable region with an entry of the usual size. -/
def usableRegion (base length : Nat) (hb : base < 18446744073709551616)
    (hl : length < 18446744073709551616) : MmapEntry where
  size := 20
  base := base
  length := length
  type := 1
  size_ge := Nat.le_refl 20
  size_lt := by decide
  base_lt := hb
  length_lt := hl
  type_lt := by decide

/-- A boot state with a memory map of one entry. -/
def singleMap (e : MmapEntry) : MemoryState :=
  let m := store32 (fun _ => 0) 0x9000 0x40
  let m := store32 (store32 m 0x902C (e.size + 4)) 0x9030 0x9100
  let m := store32 (store32 m 0x9100 e.size) 0x9104 e.base
  let m := store32 (store32 m 0x9108 (e.base / 4294967296)) 0x910C e.length
  let m := store32 (store32 m 0x9110 (e.length / 4294967296)) 0x9114 e.type
  { bootMemory with mem := m }

theorem singleMap_given {e : MmapEntry} (he : e.size = 20) :
    MapGiven Layout.sample (singleMap e).mem 0x9000 [e] := by
  have hb := e.base_lt
  have hl := e.length_lt
  have ht := e.type_lt
  have hload : ∀ m : Mem, ∀ a v b, b + 4 ≤ a ∨ a + 4 ≤ b →
      load32 (store32 m a v) b = load32 m b := fun m _ v _ h => load32_store32_of_ne m v h
  have haddr : mbMmapAddr (singleMap e).mem 0x9000 = 0x9100 := by
    simp (disch := omega) only [mbMmapAddr, singleMap, hload, load32_store32]
  have hbytes : mapBytes [e] = 24 := by
    rw [mapBytes_cons, he]
    rfl
  have hat : e.At (singleMap e).mem 0x9100 := by
    constructor
    all_goals
      simp (disch := omega) only [entrySize, entryAddrLow, entryAddrHigh, entryLenLow,
        entryLenHigh, entryType, MmapEntry.addrLow, MmapEntry.lenLow, singleMap, hload,
        load32_store32]
    all_goals omega
  constructor
  case info => decide
  case info_placed => exact .inl (by decide)
  case flags =>
    have hf : mbFlags (singleMap e).mem 0x9000 = 0x40 := by
      simp (disch := omega) only [mbFlags, singleMap, hload, load32_store32]
    rw [hf]
    decide
  case length =>
    rw [hbytes]
    simp (disch := omega) only [mbMmapLength, singleMap, hload, load32_store32, he]
  case map_placed =>
    rw [haddr, hbytes]
    exact .inl (by decide)
  case map_lt =>
    rw [haddr, hbytes]
    decide
  case entries =>
    rw [haddr]
    exact ⟨hat, trivial⟩

/-- The regions of the map do not overlap. -/
def NonOverlapping (es : List MmapEntry) : Prop :=
  es.Pairwise fun e e' => e.base + e.length ≤ e'.base ∨ e'.base + e'.length ≤ e.base

/-- One megabyte of memory at 16 MiB. -/
def sixteenMib : MmapEntry := usableRegion 0x01000000 0x00100000 (by decide) (by decide)

theorem only_usable_frames_free_in_sixteenMib :
    ∃ s', memoryInit Layout.sample (singleMap sixteenMib) 0x2BADB002 0x9000 = some s' ∧
      ∀ p, testFrame s'.gFrameBitmap p = false → PageUsable [sixteenMib] p := by
  obtain ⟨s', hinit, hiff⟩ := only_usable_frames_free_iff (s := singleMap sixteenMib) rfl
    (singleMap_given rfl) (List.cons_ne_nil _ _)
  refine ⟨s', hinit, hiff.2 ?_⟩
  rintro e he - p - - ⟨-, hcut⟩
  have h₁ : sixteenMib.base = 16777216 := rfl
  have h₂ : sixteenMib.addrLow = 16777216 := rfl
  have h₃ : wrap (sixteenMib.addrLow + sixteenMib.lenLow) = 17825792 := rfl
  rw [List.mem_singleton.1 he, h₁, h₃, h₂] at hcut
  omega

/-- One page of memory at 16 MiB above 4 GiB. -/
def highPage : MmapEntry := usableRegion 0x101000000 0x1000 (by decide) (by decide)

/-- The page frame at 16 MiB is handed out although the only memory lies above 4 GiB. -/
theorem frame_free_without_memory :
    MapGiven Layout.sample (singleMap highPage).mem 0x9000 [highPage] ∧
      NonOverlapping [highPage] ∧
      ∃ s', memoryInit Layout.sample (singleMap highPage) 0x2BADB002 0x9000 = some s' ∧
        testFrame s'.gFrameBitmap 4096 = false ∧ ¬ PageUsable [highPage] 4096 := by
  have hmap := singleMap_given (e := highPage) rfl
  obtain ⟨s', hinit, hfree⟩ := memoryInit_map (s := singleMap highPage) rfl hmap
    (List.cons_ne_nil _ _)
  refine ⟨hmap, List.pairwise_singleton _ _, s', hinit, (hfree 4096).1.2 ⟨by decide, ?_, ?_⟩, ?_⟩
  · exact ⟨highPage, List.mem_singleton.2 rfl, rfl, by decide, by decide, by decide⟩
  · simp only [Layout.Reserved, UserAddress, Layout.sample]
    decide
  · intro h
    obtain ⟨e, he, -, hlo, -⟩ := h 16777216 (by decide) (by decide)
    have hb : highPage.base = 4311744512 := rfl
    rw [List.mem_singleton.1 he, hb] at hlo
    omega

theorem memoryInit_emptyMap {s : MemoryState} (hs : s.gPagingReady = false)
    (hmap : MapGiven L s.mem mb []) : ∃ s', memoryInit L s 0x2BADB002 mb = some s' := by
  have hmagic : ¬ (0x2BADB002 ≠ 0x2BADB002 ∨ mb = 0) := by
    have := hmap.info
    omega
  have hno : ∀ m', MapGiven L m' mb [] → ¬ hasMmap m' mb = true := by
    intro m' h hm
    exact (of_decide_eq_true hm).2 h.length
  have hdet : detectMemoryBytes s.mem 0x2BADB002 mb = some (detectByFields s.mem mb) := by
    rw [detectMemoryBytes, if_neg hmagic, if_neg (hno _ hmap)]
  generalize detectByFields s.mem mb = detected at hdet
  have hreset : MapGiven L (resetMemory L s detected).mem mb [] :=
    hmap.same fun x hx => resetMemory_apply L s detected hx
  have hfree : ∃ s₁, freeUsableMemory (resetMemory L s detected) 0x2BADB002 mb = some s₁ := by
    generalize resetMemory L s detected = r at hreset
    rw [freeUsableMemory, if_pos ⟨rfl, hmap.info⟩, if_neg (hno _ hreset)]
    exact ⟨_, rfl⟩
  obtain ⟨s₁, hfree⟩ := hfree
  refine ⟨heapInit L (mapMemory L (reserveKernelMemory L s₁)), ?_⟩
  simp only [memoryInit, hs, Bool.false_eq_true, if_false, hdet, hfree, Option.bind_eq_bind,
    Option.bind_some]

/-- A whole page below 512 MiB of a usable region is covered by its low words, unless the region
reaches 4 GiB. -/
theorem MmapEntry.covers_of_inside {e : MmapEntry} (hlo : e.base ≤ 4096 * p)
    (hhi : 4096 * (p + 1) ≤ e.base + e.length) (hend : e.base + e.length < 4294967296) :
    Covers e.addrLow e.lenLow p := by
  have hbase : e.addrLow = e.base := Nat.mod_eq_of_lt (by omega)
  have hlen : e.lenLow = e.length := Nat.mod_eq_of_lt (by omega)
  rw [Covers, hbase, hlen, wrap]
  omega

/-- All usable memory is free exactly when the pages of every usable region that reaches 4 GiB are
covered by the low words of some usable entry. -/
theorem usable_frames_free_iff {s : MemoryState} (hs : s.gPagingReady = false)
    (hmap : MapGiven L s.mem mb es) :
    ∃ s', memoryInit L s 0x2BADB002 mb = some s' ∧
      ((∀ p, p < maxFrames → ¬ L.Reserved (4096 * p) → ∀ e ∈ es, e.type = 1 →
          e.base ≤ 4096 * p → 4096 * (p + 1) ≤ e.base + e.length →
          p < s'.gTotalFrames ∧ testFrame s'.gFrameBitmap p = false) ↔
        ∀ e ∈ es, e.type = 1 → 4294967296 ≤ e.base + e.length →
          ∀ p, p < maxFrames → ¬ L.Reserved (4096 * p) → e.base ≤ 4096 * p → Claimed es p) := by
  by_cases hne : es = []
  · subst hne
    obtain ⟨s', hinit⟩ := memoryInit_emptyMap hs hmap
    refine ⟨s', hinit, ?_⟩
    simp only [List.not_mem_nil, false_implies, implies_true]
  · obtain ⟨s', hinit, hfree⟩ := memoryInit_map hs hmap hne
    have hmax : maxFrames = 131072 := rfl
    refine ⟨s', hinit, ?_, ?_⟩
    · intro hall e he ht hend p hp hres hlo
      exact ((hfree p).1.1 (hall p hp hres e he ht hlo (by omega)).2).2.1
    · intro hcond p hp hres e he ht hlo hhi
      have hc : Claimed es p := by
        by_cases hend : 4294967296 ≤ e.base + e.length
        · exact hcond e he ht hend p hp hres hlo
        · exact ⟨e, he, ht, MmapEntry.covers_of_inside hlo hhi (by omega)⟩
      have hf := (hfree p).1.2 ⟨hp, hc, hres⟩
      exact ⟨(hfree p).2 hf, hf⟩

theorem usable_frames_free_in_sixteenMib :
    ∃ s', memoryInit Layout.sample (singleMap sixteenMib) 0x2BADB002 0x9000 = some s' ∧
      4096 < s'.gTotalFrames ∧ testFrame s'.gFrameBitmap 4096 = false := by
  obtain ⟨s', hinit, hiff⟩ := usable_frames_free_iff (s := singleMap sixteenMib) rfl
    (singleMap_given rfl)
  have hall := hiff.2 fun e he _ hend => by
    rw [List.mem_singleton.1 he] at hend
    exact absurd hend (by decide)
  have hres : ¬ Layout.sample.Reserved (4096 * 4096) := by
    simp only [Layout.Reserved, UserAddress, Layout.sample]
    decide
  exact ⟨s', hinit, hall 4096 (by decide) hres sixteenMib (List.mem_singleton.2 rfl) rfl (by decide)
    (by decide)⟩

theorem oneMib_lt : 0x00100000 < 18446744073709551616 := by decide

/-- All memory from 1 MiB up to 4 GiB. -/
def upToFourGib : MmapEntry := usableRegion 0x00100000 0xFFF00000 oneMib_lt (by decide)

/-- Nothing is free on a machine with memory up to 4 GiB. -/
theorem frame_lost_below_four_gib :
    MapGiven Layout.sample (singleMap upToFourGib).mem 0x9000 [upToFourGib] ∧
      ∃ s', memoryInit Layout.sample (singleMap upToFourGib) 0x2BADB002 0x9000 = some s' ∧
        4096 < maxFrames ∧ ¬ Layout.sample.Reserved (4096 * 4096) ∧ upToFourGib.type = 1 ∧
        upToFourGib.base ≤ 4096 * 4096 ∧
        4096 * (4096 + 1) ≤ upToFourGib.base + upToFourGib.length ∧
        testFrame s'.gFrameBitmap 4096 = true := by
  have hmap := singleMap_given (e := upToFourGib) rfl
  obtain ⟨s', hinit, hfree⟩ := memoryInit_map (s := singleMap upToFourGib) rfl hmap
    (List.cons_ne_nil _ _)
  have hres : ¬ Layout.sample.Reserved (4096 * 4096) := by
    simp only [Layout.Reserved, UserAddress, Layout.sample]
    decide
  refine ⟨hmap, s', hinit, by decide, hres, rfl, by decide, by decide, ?_⟩
  by_contra hn
  obtain ⟨-, ⟨e, he, -, -, -, hlt⟩, -⟩ := (hfree 4096).1.1 (Bool.eq_false_iff.2 hn)
  rw [List.mem_singleton.1 he] at hlt
  exact absurd hlt (by decide)

end KernelCustom
