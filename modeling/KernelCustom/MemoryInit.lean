import KernelCustom.Paging
import KernelCustom.HeapOperations

namespace KernelCustom
open Word32 ByteStore BlockTiling
set_option autoImplicit true

def maxPhysMemBytes : Nat := 512 * 1024 * 1024

/-! The fields of `struct multiboot_info` and `struct multiboot_mmap_entry` that are read. -/

def mbFlags (m : Mem) (mb : Nat) : Nat := load32 m mb
def mbMemLower (m : Mem) (mb : Nat) : Nat := load32 m (mb + 4)
def mbMemUpper (m : Mem) (mb : Nat) : Nat := load32 m (mb + 8)
def mbMmapLength (m : Mem) (mb : Nat) : Nat := load32 m (mb + 44)
def mbMmapAddr (m : Mem) (mb : Nat) : Nat := load32 m (mb + 48)

def entrySize (m : Mem) (entry : Nat) : Nat := load32 m entry
def entryAddrLow (m : Mem) (entry : Nat) : Nat := load32 m (entry + 4)
def entryLenLow (m : Mem) (entry : Nat) : Nat := load32 m (entry + 12)
def entryType (m : Mem) (entry : Nat) : Nat := load32 m (entry + 20)

/-- The multiboot information holds a memory map. -/
def hasMmap (m : Mem) (mb : Nat) : Bool := mbFlags m mb &&& (1 <<< 6) ≠ 0 ∧ mbMmapLength m mb ≠ 0

/-- The loop over the memory map in `detect_memory_bytes` and in `memory_init`. The next offset
depends on the offset alone, so a walk that is still going after `2 ^ 32` entries never ends: no
result. -/
def mmapLoop (m : Mem) (mb : Nat) (visit : Nat → σ → σ) : Nat → Nat → σ → Option σ
  | 0, _, _ => none
  | fuel + 1, offset, acc =>
    if offset < mbMmapLength m mb then
      let entry := wrap (mbMmapAddr m mb + offset)
      let length := wrap (entrySize m entry + 4)
      let acc := if entryType m entry = 1 then visit entry acc else acc
      if length = 0 then some acc else mmapLoop m mb visit fuel (wrap (offset + length)) acc
    else some acc

/-- `max_end` after one usable entry. -/
def raiseEnd (m : Mem) (entry maxEnd : Nat) : Nat :=
  let fin := wrap (entryAddrLow m entry + entryLenLow m entry)
  if maxEnd < fin then fin else maxEnd

/-- What is assumed of the memory without a memory map. -/
def detectByFields (m : Mem) (mb : Nat) : Nat :=
  if mbFlags m mb &&& 0x1 ≠ 0 then
    let totalKb := wrap (mbMemLower m mb + mbMemUpper m mb)
    if totalKb ≠ 0 then wrap (totalKb * 1024) else 64 * 1024 * 1024
  else 64 * 1024 * 1024

def detectMemoryBytes (m : Mem) (mbMagic mbInfoAddr : Nat) : Option Nat :=
  if mbMagic ≠ 0x2BADB002 ∨ mbInfoAddr = 0 then some (64 * 1024 * 1024)
  else if hasMmap m mbInfoAddr then
    (mmapLoop m mbInfoAddr (raiseEnd m) 4294967296 0 0).map fun maxEnd =>
      if maxEnd ≠ 0 then maxEnd else detectByFields m mbInfoAddr
  else some (detectByFields m mbInfoAddr)

def frameIndex (physAddr : Nat) : Nat := physAddr / pageSize

def setFrame (bitmap : Nat → Nat) (frame : Nat) : Nat → Nat :=
  Function.update bitmap (frame / 32) (bitmap (frame / 32) ||| (1 <<< (frame % 32)))

def clearFrame (bitmap : Nat → Nat) (frame : Nat) : Nat → Nat :=
  Function.update bitmap (frame / 32) (bitmap (frame / 32) &&& compl (1 <<< (frame % 32)))

def testFrame (bitmap : Nat → Nat) (frame : Nat) : Bool :=
  (bitmap (frame / 32) >>> (frame % 32)) &&& 1 ≠ 0

/-- The loop that `reserve_range` and `free_range` share. -/
def overFrames (act : (Nat → Nat) → Nat → Nat → Nat) (s : MemoryState) (startPhys size : Nat) :
    MemoryState :=
  if size = 0 then s
  else
    let start := startPhys &&& 0xFFFFF000
    let fin := alignUp (wrap (startPhys + size)) pageSize
    let fin := if s.gTotalMemoryBytes < fin then s.gTotalMemoryBytes else fin
    let body addr bitmap :=
      if frameIndex addr < s.gTotalFrames then act bitmap (frameIndex addr) else bitmap
    { s with gFrameBitmap := pageLoop body start fin s.gFrameBitmap }

def reserveRange (s : MemoryState) (startPhys size : Nat) : MemoryState :=
  overFrames setFrame s startPhys size

def freeRange (s : MemoryState) (startPhys size : Nat) : MemoryState :=
  overFrames clearFrame s startPhys size

/-- One usable entry of the memory map is freed, cut off at the end of the memory. -/
def freeEntry (m : Mem) (entry : Nat) (s : MemoryState) : MemoryState :=
  let start := entryAddrLow m entry
  let size := entryLenLow m entry
  if start < s.gTotalMemoryBytes then
    let size :=
      if s.gTotalMemoryBytes < wrap (start + size) then s.gTotalMemoryBytes - start else size
    freeRange s start size
  else s

def freeAboveLowMemory (s : MemoryState) : MemoryState :=
  freeRange s 0x00100000
    (if 0x00100000 < s.gTotalMemoryBytes then s.gTotalMemoryBytes - 0x00100000 else 0)

/-- The sizes, the full bitmap and the empty page tables that `memory_init` starts with. -/
def resetMemory (L : Layout) (s : MemoryState) (detected : Nat) : MemoryState :=
  let total := if maxPhysMemBytes < detected then maxPhysMemBytes else detected
  let total := alignUp total pageSize
  { s with
    gTotalMemoryBytes := total
    gTotalFrames := total / pageSize
    gFrameBitmap := fun _ => 0xFFFFFFFF
    mem := memset (memset s.mem L.gPageDirectory 0 4096) L.gPageTables 0 131072 }

def freeUsableMemory (s : MemoryState) (mbMagic mbInfoAddr : Nat) : Option MemoryState :=
  if mbMagic = 0x2BADB002 ∧ mbInfoAddr ≠ 0 then
    if hasMmap s.mem mbInfoAddr then
      mmapLoop s.mem mbInfoAddr (freeEntry s.mem) 4294967296 0 s
    else some (freeAboveLowMemory s)
  else some (freeAboveLowMemory s)

def reserveKernelMemory (L : Layout) (s : MemoryState) : MemoryState :=
  let s := reserveRange s 0x00000000 0x00100000
  let s :=
    if 0x00100000 < L.kernelEnd then reserveRange s 0x00100000 (L.kernelEnd - 0x00100000) else s
  let s := reserveRange s userProgramBase userProgramMaxSize
  reserveRange s (userStackTop - userStackSize) userStackSize

/-- The identity map and the two user ranges. -/
def mapMemory (L : Layout) (s : MemoryState) : MemoryState :=
  let identityBytes :=
    if identityMapBytes < s.gTotalMemoryBytes then identityMapBytes else s.gTotalMemoryBytes
  let m := identityMapRange L s.mem 0x00000000 identityBytes pageWrite
  let m := pagingMarkUserRange L m userProgramBase userProgramMaxSize
  let m := pagingMarkUserRange L m (userStackTop - userStackSize) userStackSize
  { s with mem := m, gPagingReady := true }

def memoryInit (L : Layout) (s : MemoryState) (mbMagic mbInfoAddr : Nat) : Option MemoryState :=
  if s.gPagingReady then some s
  else do
    let detected ← detectMemoryBytes s.mem mbMagic mbInfoAddr
    let s ← freeUsableMemory (resetMemory L s detected) mbMagic mbInfoAddr
    some (heapInit L (mapMemory L (reserveKernelMemory L s)))

theorem mmapLoop_induct {visit : Nat → σ → σ} (I : σ → Prop)
    (hstep : ∀ entry acc, I acc → I (visit entry acc)) (hI : I acc)
    (h : mmapLoop m mb visit fuel offset acc = some acc') : I acc' := by
  induction fuel generalizing offset acc with
  | zero => cases h
  | succ fuel ih =>
    rw [mmapLoop] at h
    split at h
    · have hnext : I (if entryType m (wrap (mbMmapAddr m mb + offset)) = 1 then
          visit (wrap (mbMmapAddr m mb + offset)) acc else acc) := by
        split
        · exact hstep _ _ hI
        · exact hI
      simp only at h
      split at h
      · cases h
        exact hnext
      · exact ih hnext h
    · cases h
      exact hI

/-- Two states that differ in the frame bitmap at most. -/
def OnlyFrames (s s' : MemoryState) : Prop := ∃ bitmap, s' = { s with gFrameBitmap := bitmap }

theorem OnlyFrames.refl (s : MemoryState) : OnlyFrames s s := ⟨s.gFrameBitmap, rfl⟩

theorem OnlyFrames.trans (h : OnlyFrames s s') (h' : OnlyFrames s' s'') : OnlyFrames s s'' := by
  obtain ⟨b, rfl⟩ := h
  obtain ⟨b', rfl⟩ := h'
  exact ⟨b', rfl⟩

theorem overFrames_only (act : (Nat → Nat) → Nat → Nat → Nat) (s : MemoryState)
    (startPhys size : Nat) : OnlyFrames s (overFrames act s startPhys size) := by
  rw [overFrames]
  split
  · exact .refl s
  · exact ⟨_, rfl⟩

theorem freeEntry_only (m : Mem) (entry : Nat) (s : MemoryState) :
    OnlyFrames s (freeEntry m entry s) := by
  rw [freeEntry]
  split
  · exact overFrames_only _ _ _ _
  · exact .refl s

theorem freeUsableMemory_only (h : freeUsableMemory s mbMagic mbInfoAddr = some s') :
    OnlyFrames s s' := by
  rw [freeUsableMemory] at h
  split at h
  · split at h
    · refine mmapLoop_induct (OnlyFrames s) ?_ (.refl s) h
      intro entry s₁ h₁
      exact h₁.trans (freeEntry_only _ _ _)
    · cases h
      exact overFrames_only _ _ _ _
  · cases h
    exact overFrames_only _ _ _ _

theorem reserveKernelMemory_only (L : Layout) (s : MemoryState) :
    OnlyFrames s (reserveKernelMemory L s) := by
  have hr := overFrames_only setFrame
  simp only [reserveKernelMemory, reserveRange]
  split
  · exact (((hr _ _ _).trans (hr _ _ _)).trans (hr _ _ _)).trans (hr _ _ _)
  · exact ((hr _ _ _).trans (hr _ _ _)).trans (hr _ _ _)

theorem load32_zero (h₀ : ∀ x, a ≤ x → x < a + 4 → m x = 0) : load32 m a = 0 := by
  rw [load32, h₀ a (by omega) (by omega), h₀ (a + 1) (by omega) (by omega),
    h₀ (a + 2) (by omega) (by omega), h₀ (a + 3) (by omega) (by omega)]
  rfl

theorem resetMemory_heapReady (L : Layout) (s : MemoryState) (detected : Nat) :
    (resetMemory L s detected).gHeapReady = s.gHeapReady := by
  cases s
  rfl

theorem resetMemory_rep (L : Layout) (s : MemoryState) (detected : Nat) :
    PageRep L (resetMemory L s detected).mem .empty := by
  have hd := L.directory_placed
  have ht := L.tables_placed
  have ha := L.directory_tables
  have hu := L.below_user
  have hm : (resetMemory L s detected).mem =
      memset (memset s.mem L.gPageDirectory 0 4096) L.gPageTables 0 131072 := by
    simp only [resetMemory]
  have htab := memset_apply (memset s.mem L.gPageDirectory 0 4096) L.gPageTables 0
    (n := 131072) (by omega)
  have hdir := memset_apply s.mem L.gPageDirectory 0 (n := 4096) (by omega)
  have hpos : 0 < 8 := by decide
  refine ⟨fun _ => hpos, fun _ => hpos, fun _ _ => rfl, ?_, ?_⟩
  · intro d hd'
    refine load32_zero fun x hx hx' => ?_
    rw [hm, htab, if_neg (by omega), hdir, if_pos (by omega)]
  · intro p hp
    refine load32_zero fun x hx hx' => ?_
    rw [hm, htab, if_pos (by omega)]

/-- The page map that `memory_init` builds over a memory of that many bytes. -/
def bootMap (total : Nat) : PageMap :=
  let identityBytes := if identityMapBytes < total then identityMapBytes else total
  ((PageMap.empty.mapRange 0 identityBytes pageWrite).mark userProgramBase userProgramMaxSize).mark
    (userStackTop - userStackSize) userStackSize

theorem mapMemory_heapReady (L : Layout) (s : MemoryState) :
    (mapMemory L s).gHeapReady = s.gHeapReady := by simp only [mapMemory]

theorem mapMemory_total (L : Layout) (s : MemoryState) :
    (mapMemory L s).gTotalMemoryBytes = s.gTotalMemoryBytes := by simp only [mapMemory]

theorem mapMemory_rep (h : PageRep L s.mem .empty) :
    PageRep L (mapMemory L s).mem (bootMap s.gTotalMemoryBytes) := by
  have h₁ := h.mapRange (a := 0) (by decide)
    (if identityMapBytes < s.gTotalMemoryBytes then identityMapBytes else s.gTotalMemoryBytes)
    pageWrite
  have h₂ := h₁.mark (a := userProgramBase) (by decide) userProgramMaxSize
  exact h₂.mark (a := userStackTop - userStackSize) (by decide) userStackSize

theorem PageRep.of_same (h : PageRep L m M) (hs : ∀ x, TableByte L x → m' x = m x) :
    PageRep L m' M := by
  refine ⟨h.dir_lt, h.page_lt, h.dir_none, ?_, ?_⟩
  · intro d hd
    rw [← h.directory d hd]
    have hsame : SameOn m m' L.gPageDirectory (L.gPageDirectory + 4096) :=
      fun x hl hx => hs x (.inl ⟨hl, hx⟩)
    exact hsame.load32 (by omega) (by omega)
  · intro p hp
    rw [← h.tables p hp]
    have hsame : SameOn m m' L.gPageTables (L.gPageTables + 131072) :=
      fun x hl hx => hs x (.inr ⟨hl, hx⟩)
    exact hsame.load32 (by omega) (by omega)

theorem TableByte.off_heap (h : TableByte L x) : x < L.gHeap ∨ L.heapEnd ≤ x := by
  have h₁ := L.heap_directory
  have h₂ := L.heap_tables
  rw [Layout.heapEnd]
  rcases h with h | h <;> omega

theorem heapInit_apply (L : Layout) (s : MemoryState) (hx : x < L.gHeap ∨ L.heapEnd ≤ x) :
    (heapInit L s).mem x = s.mem x := by
  rw [heapInit]
  split
  · rfl
  · rw [Layout.heapEnd] at hx
    have hself : x ≤ x ∧ x < x + 1 := by omega
    exact writeHeader_sameOn s.mem heapSize 0 0 (by omega) x hself.1 hself.2

theorem heapInit_total (L : Layout) (s : MemoryState) :
    (heapInit L s).gTotalMemoryBytes = s.gTotalMemoryBytes := by
  rw [heapInit]
  split <;> rfl

theorem memoryInit_some (hs : s.gPagingReady = false)
    (h : memoryInit L s mbMagic mbInfoAddr = some s') :
    ∃ detected s₁, freeUsableMemory (resetMemory L s detected) mbMagic mbInfoAddr = some s₁ ∧
      s' = heapInit L (mapMemory L (reserveKernelMemory L s₁)) := by
  simp only [memoryInit, hs, Bool.false_eq_true, if_false, Option.bind_eq_bind,
    Option.bind_eq_some_iff, Option.some.injEq] at h
  obtain ⟨detected, -, s₁, h₁, rfl⟩ := h
  exact ⟨detected, s₁, h₁, rfl⟩

theorem memoryInit_default (L : Layout) (s : MemoryState) (hs : s.gPagingReady = false) :
    (memoryInit L s 0 0).isSome := by
  simp only [memoryInit, hs, detectMemoryBytes, freeUsableMemory]
  rfl

/-- `memory_init` builds the page map. -/
theorem memoryInit_pageRep (hs : s.gPagingReady = false)
    (h : memoryInit L s mbMagic mbInfoAddr = some s') :
    PageRep L s'.mem (bootMap s'.gTotalMemoryBytes) := by
  obtain ⟨detected, s₁, h₁, rfl⟩ := memoryInit_some hs h
  have hreset := resetMemory_rep L s detected
  have hframes := (freeUsableMemory_only h₁).trans (reserveKernelMemory_only L s₁)
  generalize resetMemory L s detected = r at hreset hframes
  generalize reserveKernelMemory L s₁ = s₂ at hframes
  obtain ⟨bitmap, rfl⟩ := hframes
  rw [heapInit_total, mapMemory_total]
  exact PageRep.of_same (mapMemory_rep hreset) fun x hx => heapInit_apply L _ hx.off_heap

theorem mapMemory_apply (L : Layout) (s : MemoryState) (hx : ¬ TableByte L x) :
    (mapMemory L s).mem x = s.mem x := by
  simp only [mapMemory]
  rw [pagingMarkUserRange_apply L _ (by decide) _ hx,
    pagingMarkUserRange_apply L _ (by decide) _ hx, identityMapRange_apply L _ (by decide) _ _ hx]

/-- `memory_init` changes nothing outside the page tables and the heap. -/
theorem memoryInit_apply (hs : s.gPagingReady = false)
    (h : memoryInit L s mbMagic mbInfoAddr = some s') (hx : ¬ TableByte L x)
    (hheap : x < L.gHeap ∨ L.heapEnd ≤ x) : s'.mem x = s.mem x := by
  obtain ⟨detected, s₁, h₁, rfl⟩ := memoryInit_some hs h
  have hframes := (freeUsableMemory_only h₁).trans (reserveKernelMemory_only L s₁)
  have hreset : (resetMemory L s detected).mem x = s.mem x := by
    have hd := L.directory_placed
    have ht := L.tables_placed
    have hu := L.below_user
    simp only [TableByte, not_or] at hx
    simp only [resetMemory]
    rw [memset_apply _ _ _ (by omega), if_neg (by omega), memset_apply _ _ _ (by omega),
      if_neg (by omega)]
  generalize resetMemory L s detected = r at hreset hframes
  generalize reserveKernelMemory L s₁ = s₂ at hframes
  obtain ⟨bitmap, rfl⟩ := hframes
  rw [heapInit_apply L _ hheap, mapMemory_apply L _ hx]
  exact hreset

/-- `memory_init` builds the page map and an empty heap. -/
theorem memoryInit_spec (hs : s.gPagingReady = false) (hh : s.gHeapReady = false)
    (h : memoryInit L s mbMagic mbInfoAddr = some s') :
    PageRep L s'.mem (bootMap s'.gTotalMemoryBytes) ∧
      HeapRep L s' [⟨L.gHeap, 524288, true⟩] := by
  refine ⟨memoryInit_pageRep hs h, ?_⟩
  obtain ⟨detected, s₁, h₁, rfl⟩ := memoryInit_some hs h
  have hready := resetMemory_heapReady L s detected
  rw [hh] at hready
  have hframes := (freeUsableMemory_only h₁).trans (reserveKernelMemory_only L s₁)
  generalize resetMemory L s detected = r at hready hframes
  generalize reserveKernelMemory L s₁ = s₂ at hframes
  obtain ⟨bitmap, rfl⟩ := hframes
  exact heapInit_rep L (by rw [mapMemory_heapReady, hready])

/-- Addresses that belong to user programs: the program area and the stack page. -/
def UserAddress (v : Nat) : Prop :=
  (userProgramBase ≤ v ∧ v < userProgramBase + userProgramMaxSize) ∨
    (userStackTop - userStackSize ≤ v ∧ v < userStackTop)

/-- Only pages of user programs carry `PAGE_USER`. -/
def PageMap.Confined (M : PageMap) : Prop :=
  ∀ p, M.page p &&& pageUser ≠ 0 → UserAddress (4096 * p)

theorem PageMap.Confined.mark {M : PageMap} (h : M.Confined)
    (ha : ∀ p, size ≠ 0 → a / 4096 ≤ p → p < markEnd a size / 4096 → UserAddress (4096 * p)) :
    (M.mark a size).Confined := by
  intro p hp
  rw [M.mark_page] at hp
  split at hp
  · next hin => exact ha p hin.1 hin.2.1 hin.2.2.1
  · exact h p hp

theorem bootMap_confined (total : Nat) : (bootMap total).Confined := by
  have hprog : markEnd userProgramBase userProgramMaxSize = 0x00900000 := by decide
  have hstack : markEnd (userStackTop - userStackSize) userStackSize = 0x00C00000 := by decide
  rw [bootMap]
  refine PageMap.Confined.mark (PageMap.Confined.mark ?_ ?_) ?_
  · -- the identity map itself gives no user rights
    intro p hp
    have hempty : PageMap.empty.page p &&& pageUser = 0 := Nat.zero_and _
    generalize (if identityMapBytes < total then identityMapBytes else total) = n at hp
    by_cases hn : n = 0
    · rw [PageMap.mapRange, if_pos hn] at hp
      exact (hp hempty).elim
    · rw [PageMap.mapRange, if_neg hn, PageMap.mapPages_page] at hp
      split at hp
      · exact (hp rfl).elim
      · exact (hp hempty).elim
  · intro p _ hl hu
    rw [hprog] at hu
    simp only [userProgramBase] at hl
    simp only [UserAddress, userProgramBase, userProgramMaxSize]
    omega
  · intro p _ hl hu
    rw [hstack] at hu
    simp only [userStackTop, userStackSize] at hl
    simp only [UserAddress, userStackTop, userStackSize]
    omega

theorem PageRep.confined (h : PageRep L m M) (hM : M.Confined) (hv : v < 4294967296)
    (hu : UserAccessible L m v) : UserAddress v := by
  have hp := hM _ (h.userAccessible hv hu)
  simp only [UserAddress, userProgramBase, userProgramMaxSize, userStackTop, userStackSize] at hp ⊢
  omega

end KernelCustom
