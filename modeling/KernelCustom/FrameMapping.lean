import KernelCustom.PageMapping
import KernelCustom.MemoryMap

namespace KernelCustom
open Word32 ByteStore
set_option autoImplicit true

/-- A page that is present at both levels. -/
def PageMap.Present (M : PageMap) (p : Nat) : Prop := M.dir (p / 1024) % 2 = 1 ∧ M.page p % 2 = 1

theorem or_odd (a b : Nat) : (a ||| (3 ||| b)) % 2 = 1 ∧ (1 ||| b) % 2 = 1 := by
  simp only [Nat.mod_two_eq_one_iff_testBit_zero, Nat.testBit_or]
  exact ⟨Bool.or_true _, Bool.true_or _⟩

theorem PageMap.mapPages_present (M : PageMap) (flags : Nat) (hl : lo ≤ q) (hq : q < lo + n)
    (hlt : q < 32768) : (M.mapPages lo flags n).Present q := by
  refine ⟨?_, ?_⟩
  · rw [M.mapPages_dir_of_mem flags hl hq hlt]
    exact (or_odd _ _).1
  · rw [M.mapPages_page, if_pos ⟨hl, hq, hlt⟩]
    exact (or_odd 0 _).2

theorem PageMap.Present.mark {M : PageMap} (h : M.Present p) (a size : Nat) :
    (M.mark a size).Present p := by
  refine ⟨?_, ?_⟩
  · rcases M.mark_dir a size (p / 1024) with hd | hd
    · rw [hd]
      exact h.1
    · rw [hd]
      exact (or_odd _ 4).1
  · rw [M.mark_page]
    split
    · rfl
    · exact h.2

/-- All memory below 128 MiB is mapped after `memory_init`. -/
theorem bootMap_present (hp : p < 32768) (ht : 4096 * p < total) : (bootMap total).Present p := by
  have hbytes : ∃ n, (if identityMapBytes < total then identityMapBytes else total) = n ∧
      4096 * p < n ∧ n ≤ 134217728 := by
    have hid : identityMapBytes = 134217728 := rfl
    refine ⟨_, rfl, ?_⟩
    by_cases hlt : identityMapBytes < total
    · rw [if_pos hlt]
      omega
    · rw [if_neg hlt]
      omega
  obtain ⟨n, hn, hpn, hle⟩ := hbytes
  have hend : 4096 * p + 4096 ≤ mapEnd 0 n := by
    have hmark : markEnd 0 n = (n + 4095) / 4096 * 4096 := by
      simp only [markEnd, pageSize, alignUp_page, wrap]
      omega
    have hid : identityMapBytes = 134217728 := rfl
    rw [mapEnd, hmark]
    by_cases hlt : identityMapBytes < (n + 4095) / 4096 * 4096
    · rw [if_pos hlt]
      omega
    · rw [if_neg hlt]
      omega
  rw [bootMap, hn]
  refine PageMap.Present.mark (PageMap.Present.mark ?_ _ _) _ _
  rw [PageMap.mapRange, if_neg (by omega)]
  exact PageMap.empty.mapPages_present _ (Nat.zero_le p) (by omega) hp

/-- The directory of the kernel, before any `page_map`. -/
theorem PageRep.pageDirectory {s : MemoryState} (h : PageRep L s.mem M) (hs : s.Sized)
    (hres : ∀ f, s.Free f → ¬ L.Reserved (4096 * f)) : PageDirectory s L.gPageDirectory := by
  have hdir := L.directory_placed
  have htab := L.tables_placed
  have hapart := L.directory_tables
  have hu := L.below_user
  have hal := L.tables_aligned
  have hal' := L.directory_aligned
  have hend : L.kernelEnd ≤ alignUp L.kernelEnd pageSize := by
    rw [pageSize, alignUp_page]
    omega
  have hentry : ∀ i, i < 1024 → dirEntry s.mem L.gPageDirectory i % 2 = 1 →
      i < 32 ∧ dirEntry s.mem L.gPageDirectory i / 4096 = L.gPageTables / 4096 + i := by
    intro i hi hp
    rw [dirEntry, h.directory i hi] at hp ⊢
    have hlt := h.dir_lt i
    have hne : M.dir i ≠ 0 := by
      intro h₀
      rw [entryWord, if_pos h₀] at hp
      cases hp
    refine ⟨?_, ?_⟩
    · by_contra hge
      exact hne (h.dir_none i (by omega))
    · rw [entryWord, if_neg hne]
      omega
  refine ⟨by omega, hs.le_maxFrames, ?_, ?_, ?_, ?_⟩
  · intro i j hi hj hpi hpj heq
    rw [(hentry i hi hpi).2, (hentry j hj hpj).2] at heq
    omega
  · intro i hi hp hf
    obtain ⟨hlt, hdiv⟩ := hentry i hi hp
    refine hres _ hf (.inr (.inl ?_))
    rw [hdiv]
    omega
  · intro i hi hp
    obtain ⟨hlt, hdiv⟩ := hentry i hi hp
    rw [hdiv]
    omega
  · intro f hf
    by_contra hin
    refine hres f hf (.inr (.inl ?_))
    omega

/-- The entry of a page that the static tables map. -/
theorem PageRep.pageEntry (h : PageRep L m M) (hf : f < 1048576) :
    pageEntry m L.gPageDirectory f =
      if M.dir (f / 1024) % 2 = 0 then 0 else entryWord f (M.page f) := by
  have hal := L.tables_aligned
  have hlt := h.dir_lt (f / 1024)
  have hdir : dirEntry m L.gPageDirectory (f / 1024) =
      entryWord (L.gPageTables / 4096 + f / 1024) (M.dir (f / 1024)) :=
    h.directory _ (by omega)
  by_cases hd : M.dir (f / 1024) % 2 = 0
  · have heven : dirEntry m L.gPageDirectory (f / 1024) % 2 = 0 := by
      rw [hdir, entryWord]
      split <;> omega
    rw [KernelCustom.pageEntry, if_pos heven, if_pos hd]
  · have hlow : f / 1024 < 32 := by
      by_contra hge
      rw [h.dir_none _ (by omega)] at hd
      exact hd rfl
    have hne : ¬ M.dir (f / 1024) = 0 := by omega
    rw [entryWord, if_neg hne] at hdir
    rw [KernelCustom.pageEntry, if_neg (by omega), if_neg hd, ← h.tables f (by omega)]
    congr 1
    omega

/-- A page of the static tables is mapped to itself or not at all. -/
theorem PageRep.identity (h : PageRep L m M) (hf : f < 1048576) :
    pageGetPhys m L.gPageDirectory (4096 * f) =
      if M.dir (f / 1024) % 2 = 1 ∧ M.page f % 2 = 1 then 4096 * f else 0 := by
  have hpage : 4096 * f / 4096 = f := Nat.mul_div_cancel_left f (by decide)
  have hlt := h.page_lt f
  rw [pageGetPhys_eq, hpage, h.pageEntry hf]
  by_cases hd : M.dir (f / 1024) % 2 = 0
  · rw [if_pos hd, if_pos (Nat.zero_mod 2), if_neg (by omega)]
  · rw [if_neg hd, entryWord]
    by_cases hp : M.page f % 2 = 1
    · have hne : ¬ M.page f = 0 := by omega
      rw [if_neg hne, if_neg (by omega), if_pos ⟨by omega, hp⟩]
      omega
    · have heven : (if M.page f = 0 then 0 else 4096 * f + M.page f) % 2 = 0 := by
        split <;> omega
      rw [if_pos heven, if_neg fun hn => hp hn.2]

/-- The memory and the addresses that `pmm_alloc_page` returned or that `page_map` took for a new
table. -/
structure FrameUse where
  memory : MemoryState
  taken : List Nat

def FrameUse.allocFrame (u : FrameUse) : FrameUse :=
  { u with memory := (pmmAllocFrame u.memory).state }

def FrameUse.allocPage (u : FrameUse) : FrameUse :=
  ⟨(pmmAllocPage u.memory).state, (pmmAllocPage u.memory).result :: u.taken⟩

/-- `page_map` takes a frame for a table. -/
def FrameUse.NeedsTable (L : Layout) (u : FrameUse) (c : MapCall) : Prop :=
  dirEntry u.memory.mem L.gPageDirectory (c.vaddr / 4194304) % 2 = 0

instance (L : Layout) (u : FrameUse) (c : MapCall) : Decidable (u.NeedsTable L c) :=
  inferInstanceAs (Decidable (_ = _))

/-- `page_map` on `kernel_pd`. -/
def FrameUse.map (L : Layout) (u : FrameUse) (c : MapCall) : FrameUse :=
  ⟨c.apply L.gPageDirectory u.memory,
    if u.NeedsTable L c then (pmmAllocFrame u.memory).result :: u.taken else u.taken⟩

/-- The runs of the allocator and of `page_map` above the identity map, while the states in which a
frame is taken for a page or a table are `ok`. -/
inductive FrameUses (L : Layout) (ok : MemoryState → Prop) (s : MemoryState) : FrameUse → Prop where
  | boot : FrameUses L ok s ⟨s, []⟩
  | allocFrame : FrameUses L ok s u → FrameUses L ok s u.allocFrame
  | allocPage : FrameUses L ok s u → ok u.memory → FrameUses L ok s u.allocPage
  | map : FrameUses L ok s u → identityMapBytes ≤ c.vaddr →
      (u.NeedsTable L c → ok u.memory) → FrameUses L ok s (u.map L c)

/-- The allocator has a frame below 128 MiB left, or none at all. -/
def LowFrameLeft (s : MemoryState) : Prop :=
  (∃ f, f < 32768 ∧ s.Free f) ∨ ∀ f, ¬ s.Free f

/-- What every run keeps: pages below 128 MiB are mapped as they were at first, and the frames that
were taken lie there. -/
structure FrameUse.Sound (L : Layout) (s : MemoryState) (u : FrameUse) : Prop where
  directory : PageDirectory u.memory L.gPageDirectory
  total : u.memory.gTotalFrames = s.gTotalFrames
  low : ∀ w, w < 134217728 →
    pageGetPhys u.memory.mem L.gPageDirectory w = pageGetPhys s.mem L.gPageDirectory w
  taken : ∀ a, a ∈ u.taken → a = 0 ∨ ∃ f, a = 4096 * f ∧ f < 32768 ∧ f < s.gTotalFrames

theorem pmmAllocFrame_total {s : MemoryState} (h : s.gTotalFrames ≤ maxFrames) :
    (pmmAllocFrame s).state.gTotalFrames = s.gTotalFrames := by
  rcases pmmAllocFrame_lowest h with ⟨-, -, hst⟩ | ⟨f, -, -, -, hst⟩ <;> rw [hst]

theorem pageMap_total {s : MemoryState} (h : s.gTotalFrames ≤ maxFrames) (pd v p flags : Nat) :
    (pageMap s pd v p flags).gTotalFrames = s.gTotalFrames := by
  simp only [pageMap, ensureTable]
  by_cases hp : load32 s.mem (pd + 4 * (v >>> 22)) &&& pagePresent = 0
  · rw [if_pos hp]
    by_cases hr : (pmmAllocFrame s).result = 0
    · rw [if_pos hr]
      exact pmmAllocFrame_total h
    · rw [if_neg hr]
      exact pmmAllocFrame_total h
  · rw [if_neg hp]
    rfl

/-- A frame that is taken while a low one is left is low. -/
theorem LowFrameLeft.result {s : MemoryState} (hl : LowFrameLeft s)
    (h : s.gTotalFrames ≤ maxFrames) :
    (pmmAllocFrame s).result = 0 ∨
      ∃ f, (pmmAllocFrame s).result = 4096 * f ∧ f < 32768 ∧ f < s.gTotalFrames := by
  rcases pmmAllocFrame_lowest h with ⟨-, hr, -⟩ | ⟨f, hf, hlow, hr, -⟩
  · exact .inl hr
  · rcases hl with ⟨g, hg, hgfree⟩ | hnone
    · refine .inr ⟨f, hr, ?_, hf.1⟩
      by_contra hge
      exact hlow g (by omega) hgfree
    · exact absurd hf (hnone f)

theorem FrameUses.sound (h : FrameUses L LowFrameLeft s u)
    (hd : PageDirectory s L.gPageDirectory) : u.Sound L s := by
  induction h with
  | boot => exact ⟨hd, rfl, fun _ _ => rfl, fun a ha => by cases ha⟩
  | @allocFrame u _ ih =>
    obtain ⟨hdir, hmem⟩ := ih.directory.alloc
    refine ⟨hdir, (pmmAllocFrame_total ih.directory.frames).trans ih.total, ?_, ih.taken⟩
    simp only [FrameUse.allocFrame, hmem]
    exact ih.low
  | @allocPage u _ hok ih =>
    obtain ⟨hdir, hmem⟩ := ih.directory.alloc
    refine ⟨hdir, (pmmAllocFrame_total ih.directory.frames).trans ih.total, ?_, ?_⟩
    · simp only [FrameUse.allocPage, pmmAllocPage, hmem]
      exact ih.low
    · intro a ha
      rcases List.mem_cons.1 ha with rfl | ha
      · have hr := hok.result ih.directory.frames
        rw [ih.total] at hr
        exact hr
      · exact ih.taken a ha
  | @map u c _ hv hok ih =>
    obtain ⟨hdir, hrefused, hmapped⟩ := ih.directory.apply c
    refine ⟨hdir, (pageMap_total ih.directory.frames _ _ _ _).trans ih.total, ?_, ?_⟩
    · intro w hw
      refine Eq.trans ?_ (ih.low w hw)
      by_cases hr : MapRefused L.gPageDirectory u.memory c
      · exact hrefused hr w
      · have hne : ¬ c.vaddr / 4096 = w / 4096 := by
          simp only [identityMapBytes] at hv
          omega
        exact (hmapped hr w (by omega)).trans (if_neg hne)
    · intro a ha
      simp only [FrameUse.map] at ha
      split at ha
      · next hneed =>
        rcases List.mem_cons.1 ha with rfl | ha
        · have hr := (hok hneed).result ih.directory.frames
          rw [ih.total] at hr
          exact hr
        · exact ih.taken a ha
      · exact ih.taken a ha

/-- In every run that takes frames only while one below 128 MiB is left, all frames that were taken
for pages and tables are reached under their own addresses. -/
theorem taken_frames_addressable {s₀ s : MemoryState} (hpaging : s₀.gPagingReady = false)
    (hheap : s₀.gHeapReady = false) (hinit : memoryInit L s₀ mbMagic mbInfoAddr = some s)
    (h : FrameUses L LowFrameLeft s u) :
    ∀ a ∈ u.taken, pageGetPhys u.memory.mem L.gPageDirectory a = a := by
  obtain ⟨hrep, -⟩ := memoryInit_spec hpaging hheap hinit
  obtain ⟨hsized, hres⟩ := memoryInit_frames hpaging hinit
  have hsound := h.sound (hrep.pageDirectory hsized hres)
  have hframes := hsized.frames
  intro a ha
  rcases hsound.taken a ha with rfl | ⟨f, rfl, hlt, htotal⟩
  · rw [hsound.low 0 (by decide)]
    have hzero := hrep.identity (f := 0) (by decide)
    rw [Nat.mul_zero, ite_self] at hzero
    exact hzero
  · have hpresent : (bootMap s.gTotalMemoryBytes).Present f := bootMap_present hlt (by omega)
    rw [hsound.low _ (by omega), hrep.identity (by omega)]
    exact if_pos hpresent

/-- With 17 MiB of memory, frame 4096 is free after `memory_init`. -/
theorem sixteenMib_boot :
    ∃ s, memoryInit Layout.sample (singleMap sixteenMib) 0x2BADB002 0x9000 = some s ∧
      s.Free 4096 := by
  obtain ⟨s, hs, hfree⟩ := memoryInit_map (s := singleMap sixteenMib) rfl (singleMap_given rfl)
    (List.cons_ne_nil _ _)
  have hf : testFrame s.gFrameBitmap 4096 = false := by
    refine (hfree 4096).1.2 ⟨by decide, ?_, ?_⟩
    · exact ⟨sixteenMib, List.mem_singleton.2 rfl, rfl, by decide, by decide, by decide⟩
    · simp only [Layout.Reserved, UserAddress, Layout.sample]
      decide
  exact ⟨s, hs, (hfree 4096).2 hf, hf⟩

theorem first_page_addressable :
    ∃ s, memoryInit Layout.sample (singleMap sixteenMib) 0x2BADB002 0x9000 = some s ∧
      ∀ a ∈ (FrameUse.allocPage ⟨s, []⟩).taken,
        pageGetPhys (FrameUse.allocPage ⟨s, []⟩).memory.mem Layout.sample.gPageDirectory a = a := by
  obtain ⟨s, hs, hfree⟩ := sixteenMib_boot
  have hlow : LowFrameLeft s := .inl ⟨4096, by decide, hfree⟩
  exact ⟨s, hs, taken_frames_addressable rfl rfl hs (.allocPage .boot hlow)⟩

/-- Allocations in a row take the frames from the lowest on. -/
theorem exhaust_low_frames (hs : s.gTotalFrames ≤ maxFrames) (hf : s.Free f) (hb : b ≤ f) :
    ∃ u, FrameUses L (fun _ => True) s u ∧ u.memory.mem = s.mem ∧
      u.memory.gTotalFrames = s.gTotalFrames ∧ u.memory.Free f ∧
      ∀ g, g < b → ¬ u.memory.Free g := by
  induction b with
  | zero => exact ⟨⟨s, []⟩, .boot, rfl, rfl, hf, fun g hg => absurd hg (Nat.not_lt_zero g)⟩
  | succ b ih =>
    obtain ⟨u, hu, hmem, htotal, hfree, hlow⟩ := ih (by omega)
    by_cases hfb : u.memory.Free b
    · rcases pmmAllocFrame_lowest (htotal.symm ▸ hs) with ⟨hnone, -, -⟩ | ⟨g, hg, hg', -, hst⟩
      · exact absurd hfb (hnone b)
      · -- the frame that the allocator takes is `b`
        have hgb : g = b := by
          have h₁ : ¬ g < b := fun hlt => hlow g hlt hg
          have h₂ : ¬ b < g := fun hlt => hg' b hlt hfb
          omega
        subst hgb
        refine ⟨u.allocFrame, .allocFrame hu, ?_, ?_, ?_, ?_⟩
        · rw [FrameUse.allocFrame, hst]
          exact hmem
        · rw [FrameUse.allocFrame, hst]
          exact htotal
        · rw [FrameUse.allocFrame, hst]
          exact (u.memory.free_setFrame g f).2 ⟨hfree, by omega⟩
        · intro k hk hkfree
          rw [FrameUse.allocFrame, hst] at hkfree
          obtain ⟨hkfree, hne⟩ := (u.memory.free_setFrame g k).1 hkfree
          exact hlow k (by omega) hkfree
    · refine ⟨u, hu, hmem, htotal, hfree, fun k hk hkfree => ?_⟩
      by_cases hkb : k = b
      · exact hfb (hkb ▸ hkfree)
      · exact hlow k (by omega) hkfree

/-- 256 MiB of memory. -/
def memory256Mib : MmapEntry := usableRegion 0x00100000 0x0FF00000 oneMib_lt (by decide)

/-- On a machine with 256 MiB, frames behind the identity map are handed out. -/
theorem frame_beyond_identity_map :
    ¬ ∀ (L : Layout) (s₀ s : MemoryState) (mbMagic mbInfoAddr : Nat) (u : FrameUse),
      s₀.gPagingReady = false → s₀.gHeapReady = false →
      memoryInit L s₀ mbMagic mbInfoAddr = some s → FrameUses L (fun _ => True) s u →
        ∀ a ∈ u.taken, pageGetPhys u.memory.mem L.gPageDirectory a = a := by
  intro h
  obtain ⟨s, hinit, hfree⟩ := memoryInit_map (s := singleMap memory256Mib) rfl (singleMap_given rfl)
    (List.cons_ne_nil _ _)
  obtain ⟨hrep, -⟩ := memoryInit_spec rfl rfl hinit
  obtain ⟨hsized, -⟩ := memoryInit_frames rfl hinit
  have hf : testFrame s.gFrameBitmap 32768 = false := by
    refine (hfree 32768).1.2 ⟨by decide, ?_, ?_⟩
    · exact ⟨memory256Mib, List.mem_singleton.2 rfl, rfl, by decide, by decide, by decide⟩
    · simp only [Layout.Reserved, UserAddress, Layout.sample]
      decide
  obtain ⟨u, hu, hmem, htotal, hufree, hlow⟩ :=
    exhaust_low_frames hsized.le_maxFrames ⟨(hfree 32768).2 hf, hf⟩ (Nat.le_refl 32768)
  have hle : u.memory.gTotalFrames ≤ maxFrames := htotal.symm ▸ hsized.le_maxFrames
  rcases pmmAllocFrame_lowest hle with ⟨hnone, -, -⟩ | ⟨g, hg, hg', hr, hst⟩
  · exact hnone _ hufree
  · -- the next page is the first one behind the identity map
    have hge : g = 32768 := by
      have h₁ : ¬ g < 32768 := fun hlt => hlow g hlt hg
      have h₂ : ¬ 32768 < g := fun hlt => hg' _ hlt hufree
      omega
    have hget := h Layout.sample _ s _ _ _ rfl rfl hinit (.allocPage hu trivial) (4096 * g)
      (hr ▸ List.mem_cons_self ..)
    have hmem' : u.allocPage.memory.mem = s.mem := by
      rw [FrameUse.allocPage, pmmAllocPage, hst]
      exact hmem
    have habsent : (bootMap s.gTotalMemoryBytes).dir (32768 / 1024) = 0 :=
      hrep.dir_none _ (by decide)
    rw [hmem', hge, hrep.identity (by decide), if_neg fun hp => by
      rw [habsent] at hp
      cases hp.1] at hget
    cases hget

end KernelCustom
