import KernelCustom.FrameMapping

namespace KernelCustom
open Word32 ByteStore
set_option autoImplicit true

/-- The directory entry of an address. -/
def directoryWord (m : Mem) (pd vaddr : Nat) : Nat := load32 m (pd + 4 * (vaddr >>> 22))

/-- The entry of an address in the page table that its directory entry points to. -/
def tableWord (m : Mem) (pd vaddr : Nat) : Nat :=
  load32 m ((directoryWord m pd vaddr &&& 0xFFFFF000) + 4 * ((vaddr >>> 12) &&& 0x3FF))

/-- The rights that both levels give. -/
def effectiveRights (m : Mem) (pd vaddr : Nat) : Nat :=
  directoryWord m pd vaddr &&& tableWord m pd vaddr

theorem directoryWord_eq (m : Mem) (pd v : Nat) :
    directoryWord m pd v = dirEntry m pd (v / 4194304) := by rw [directoryWord, pde_eq, dirEntry]

theorem tableWord_eq (hp : dirEntry m pd (v / 4194304) % 2 = 1) :
    tableWord m pd v = pageEntry m pd (v / 4096) := by
  have hdir : v / 4096 / 1024 = v / 4194304 := Nat.div_div_eq_div_mul v 4096 1024
  have hmask : dirEntry m pd (v / 4194304) &&& 0xFFFFF000 =
      dirEntry m pd (v / 4194304) / 4096 * 4096 := and_page_mask (load32_lt _ _)
  rw [tableWord, directoryWord_eq, pageEntry, hdir, if_neg (by omega), pte_eq, hmask]

/-! The page map that `memory_init` builds. -/

/-- A page that is mapped with rights has them in its directory entry too. -/
def PageMap.Covered (M : PageMap) : Prop := ∀ p, M.page p &&& M.dir (p / 1024) = M.page p

theorem and_or_of_and_eq (h : a &&& b = a) (c : Nat) : a &&& (b ||| c) = a := by
  rw [Nat.and_or_distrib_left, h]
  apply Nat.eq_of_testBit_eq
  intro i
  simp only [Nat.testBit_and, Nat.testBit_or]
  cases a.testBit i <;> simp

theorem page_flags_covered (flags : Nat) :
    (1 ||| (flags &&& 6)) &&& (3 ||| (flags &&& 4)) = 1 ||| (flags &&& 6) := by
  have hall : ∀ f : Fin 8,
      (1 ||| (f.val &&& 6)) &&& (3 ||| (f.val &&& 4)) = 1 ||| (f.val &&& 6) := by
    decide
  have hlow : flags &&& 7 < 8 := Nat.lt_succ_of_le Nat.and_le_right
  have h₆ : flags &&& 6 = (flags &&& 7) &&& 6 := (Nat.and_assoc flags 7 6).symm
  have h₄ : flags &&& 4 = (flags &&& 7) &&& 4 := (Nat.and_assoc flags 7 4).symm
  rw [h₆, h₄]
  exact hall ⟨flags &&& 7, hlow⟩

theorem PageMap.Covered.map {M : PageMap} (h : M.Covered) (p flags : Nat) :
    (M.map p flags).Covered := by
  by_cases hp : p < 32768
  · intro q
    rw [M.map_page flags hp, M.map_dir flags hp]
    by_cases hqp : q = p
    · rw [if_pos hqp, if_pos (by rw [hqp]), Nat.or_comm (M.dir _)]
      exact and_or_of_and_eq (page_flags_covered flags) _
    · rw [if_neg hqp]
      split
      · exact and_or_of_and_eq (h q) _
      · exact h q
  · rw [PageMap.map, if_neg hp]
    exact h

theorem PageMap.Covered.mapPages {M : PageMap} (h : M.Covered) (lo flags n : Nat) :
    (M.mapPages lo flags n).Covered := by
  induction n with
  | zero => exact h
  | succ n ih => exact ih.map _ flags

theorem PageMap.Covered.mark {M : PageMap} (h : M.Covered) (a size : Nat) :
    (M.mark a size).Covered := by
  rw [PageMap.mark]
  split
  · exact h
  · exact h.mapPages _ _ _

theorem PageMap.Covered.mapRange {M : PageMap} (h : M.Covered) (a size flags : Nat) :
    (M.mapRange a size flags).Covered := by
  rw [PageMap.mapRange]
  split
  · exact h
  · exact h.mapPages _ _ _

theorem bootMap_covered (total : Nat) : (bootMap total).Covered := by
  have hempty : PageMap.empty.Covered := fun _ => Nat.zero_and _
  exact ((hempty.mapRange _ _ _).mark _ _).mark _ _

theorem userAddress_page (v : Nat) :
    UserAddress v ↔ 2048 ≤ v / 4096 ∧ v / 4096 < 2304 ∨ v / 4096 = 3071 := by
  simp only [UserAddress, userProgramBase, userProgramMaxSize, userStackTop, userStackSize]
  omega

theorem PageMap.mark_program (M : PageMap) (p : Nat) :
    (M.mark userProgramBase userProgramMaxSize).page p =
      if 2048 ≤ p ∧ p < 2304 then 7 else M.page p := by
  have hend : markEnd userProgramBase userProgramMaxSize / 4096 = 2304 := by decide
  have hbase : userProgramBase / 4096 = 2048 := by decide
  have hsize : userProgramMaxSize ≠ 0 := by decide
  rw [M.mark_page, hend, hbase]
  congr 1
  apply propext
  omega

theorem PageMap.mark_stack (M : PageMap) (p : Nat) :
    (M.mark (userStackTop - userStackSize) userStackSize).page p =
      if p = 3071 then 7 else M.page p := by
  have hend : markEnd (userStackTop - userStackSize) userStackSize / 4096 = 3072 := by decide
  have hbase : (userStackTop - userStackSize) / 4096 = 3071 := by decide
  have hsize : userStackSize ≠ 0 := by decide
  rw [M.mark_page, hend, hbase]
  congr 1
  apply propext
  omega

theorem PageMap.mapRange_page (M : PageMap) (flags : Nat) (hn : n % 4096 = 0) (hle : n ≤ 134217728)
    (q : Nat) : (M.mapRange 0 n flags).page q =
      if 4096 * q < n then 1 ||| (flags &&& 6) else M.page q := by
  rw [PageMap.mapRange]
  by_cases h₀ : n = 0
  · rw [if_pos h₀, if_neg (by omega)]
  · have hmark : markEnd 0 n = n := by
      simp only [markEnd, pageSize, alignUp_page, wrap]
      omega
    have hend : mapEnd 0 n = n := by
      rw [mapEnd, hmark, if_neg (by simp only [identityMapBytes]; omega)]
    rw [if_neg h₀, hend, PageMap.mapPages_page]
    by_cases hq : 4096 * q < n
    · rw [if_pos (by omega), if_pos hq]
    · rw [if_neg (by omega), if_neg hq]

/-- The flags of the page of an address after `memory_init`. -/
theorem bootMap_page (ht : total % 4096 = 0) (v : Nat) :
    (UserAddress v → (bootMap total).page (v / 4096) = 7) ∧
    (¬ UserAddress v → (bootMap total).page (v / 4096) =
      if v < min total identityMapBytes then 3 else 0) := by
  have hbytes : (if identityMapBytes < total then identityMapBytes else total) =
      min total identityMapBytes := by
    split <;> omega
  have hid : identityMapBytes = 134217728 := rfl
  rw [bootMap, hbytes, PageMap.mark_stack, PageMap.mark_program,
    PageMap.mapRange_page _ _ (by omega) (by omega), userAddress_page]
  constructor
  · rintro (hprog | hstack)
    · rw [if_neg (by omega), if_pos hprog]
    · rw [if_pos hstack]
  · intro hu
    rw [not_or] at hu
    rw [if_neg hu.2, if_neg hu.1]
    congr 1
    apply propext
    omega

/-- A right of a page is one of its directory entry too. -/
theorem PageMap.Covered.dir {M : PageMap} (h : M.Covered) (v c : Nat)
    (hc : M.page (v / 4096) &&& c = c) : M.dir (v / 4194304) &&& c = c := by
  have hcov := h (v / 4096)
  rw [Nat.div_div_eq_div_mul] at hcov
  calc M.dir (v / 4194304) &&& c
      = M.dir (v / 4194304) &&& (M.page (v / 4096) &&& c) := by rw [hc]
    _ = M.page (v / 4096) &&& M.dir (v / 4194304) &&& c := by
      rw [← Nat.and_assoc, Nat.and_comm (M.dir _)]
    _ = c := by rw [hcov, hc]

/-- The two entries of an address whose page is mapped: the flags of the page are those of the table
entry, and the directory entry has them too. -/
theorem PageRep.entries (h : PageRep L m M) (hc : M.Covered) (hv : v < 4294967296)
    (hp : M.page (v / 4096) % 2 = 1) :
    (∀ c, c < 8 → directoryWord m L.gPageDirectory v &&& c = M.dir (v / 4194304) &&& c) ∧
      (∀ c, c < 8 → tableWord m L.gPageDirectory v &&& c = M.page (v / 4096) &&& c) ∧
      pageGetPhys m L.gPageDirectory v = v := by
  have hdiv : v / 4096 / 1024 = v / 4194304 := Nat.div_div_eq_div_mul v 4096 1024
  have hdir : dirEntry m L.gPageDirectory (v / 4194304) =
      entryWord (L.gPageTables / 4096 + v / 4194304) (M.dir (v / 4194304)) :=
    h.directory _ (by omega)
  have hodd : M.dir (v / 4194304) % 2 = 1 := by
    rw [← Nat.and_one_is_mod] at hp ⊢
    exact hc.dir v 1 hp
  have hne : ¬ M.dir (v / 4194304) = 0 := by omega
  have hne' : ¬ M.page (v / 4096) = 0 := by omega
  have hlt := h.page_lt (v / 4096)
  have hpage := h.pageEntry (f := v / 4096) (by omega)
  rw [hdiv, if_neg (by omega)] at hpage
  have hpresent : dirEntry m L.gPageDirectory (v / 4194304) % 2 = 1 := by
    rw [hdir, entryWord, if_neg hne]
    omega
  refine ⟨fun c hc => ?_, fun c hc => ?_, ?_⟩
  · rw [directoryWord_eq, hdir, entryWord_and _ (h.dir_lt _) hc]
  · rw [tableWord_eq hpresent, hpage, entryWord_and _ hlt hc]
  · rw [pageGetPhys_eq, hpage, entryWord, if_neg hne', if_neg (by omega)]
    omega

theorem PageRep.unmapped (h : PageRep L m M) (hv : v < 4294967296) (hp : M.page (v / 4096) = 0) :
    pageGetPhys m L.gPageDirectory v = 0 := by
  have hpage := h.pageEntry (f := v / 4096) (by omega)
  rw [hp, entryWord, if_pos rfl, ite_self] at hpage
  rw [pageGetPhys_eq, hpage, if_pos rfl]

/-- The addresses that `memory_init` maps over a memory of that many bytes. -/
def InitiallyMapped (total v : Nat) : Prop := v < min total identityMapBytes ∨ UserAddress v

/-- After `memory_init` the page tables are the identity map: every address below the end of the
memory or below 128 MiB, and every user address, is mapped to itself and writable, the user
addresses are those with `PAGE_USER`, and no other address is mapped. -/
theorem initial_tables_identity {s s' : MemoryState} (hs : s.gPagingReady = false)
    (h : memoryInit L s mbMagic mbInfoAddr = some s') (hv : v < 4294967296) :
    (InitiallyMapped s'.gTotalMemoryBytes v →
      pageGetPhys s'.mem L.gPageDirectory v = v ∧
      directoryWord s'.mem L.gPageDirectory v &&& pageWrite ≠ 0 ∧
      tableWord s'.mem L.gPageDirectory v &&& pageWrite ≠ 0 ∧
      (tableWord s'.mem L.gPageDirectory v &&& pageUser ≠ 0 ↔ UserAddress v) ∧
      (UserAddress v → directoryWord s'.mem L.gPageDirectory v &&& pageUser ≠ 0)) ∧
    (¬ InitiallyMapped s'.gTotalMemoryBytes v → pageGetPhys s'.mem L.gPageDirectory v = 0) := by
  have hrep := memoryInit_pageRep hs h
  obtain ⟨hsized, -⟩ := memoryInit_frames hs h
  obtain ⟨huser, hother⟩ := bootMap_page hsized.aligned v
  have hcov := bootMap_covered s'.gTotalMemoryBytes
  generalize bootMap s'.gTotalMemoryBytes = M at hrep huser hother hcov
  constructor
  · intro hmapped
    by_cases hu : UserAddress v
    · have hpage := huser hu
      obtain ⟨hdir, htable, hget⟩ := hrep.entries hcov hv (by rw [hpage])
      have hwrite := hcov.dir v pageWrite (by rw [hpage]; rfl)
      have hright := hcov.dir v pageUser (by rw [hpage]; rfl)
      rw [hdir pageWrite (by decide), hdir pageUser (by decide), htable pageWrite (by decide),
        htable pageUser (by decide), hwrite, hright, hpage]
      exact ⟨hget, by decide, by decide, iff_of_true (by decide) hu, fun _ => by decide⟩
    · have hpage := hother hu
      rw [if_pos (hmapped.resolve_right hu)] at hpage
      obtain ⟨hdir, htable, hget⟩ := hrep.entries hcov hv (by rw [hpage])
      have hwrite := hcov.dir v pageWrite (by rw [hpage]; rfl)
      rw [hdir pageWrite (by decide), htable pageWrite (by decide), htable pageUser (by decide),
        hwrite, hpage]
      exact ⟨hget, by decide, by decide, iff_of_false (by decide) hu, fun h => absurd h hu⟩
  · intro hmapped
    rw [InitiallyMapped, not_or] at hmapped
    exact hrep.unmapped hv ((hother hmapped.2).trans (if_neg hmapped.1))

theorem initial_tables_identity_sixteenMib :
    ∃ s, memoryInit Layout.sample (singleMap sixteenMib) 0x2BADB002 0x9000 = some s ∧
      pageGetPhys s.mem Layout.sample.gPageDirectory 0x00800000 = 0x00800000 := by
  obtain ⟨s, hs, -⟩ := memoryInit_map (s := singleMap sixteenMib) rfl (singleMap_given rfl)
    (List.cons_ne_nil _ _)
  have huser : UserAddress 0x00800000 := .inl (by decide)
  exact ⟨s, hs, ((initial_tables_identity rfl hs (by decide)).1 (.inr huser)).1⟩

/-! The rights that `page_map` gives. -/

/-- One call: a new directory entry gets the rights asked for, one that is there keeps its own. -/
theorem PageDirectory.rights_iff (h : PageDirectory s pd) (c : MapCall)
    (hc : ¬ MapRefused pd s c) :
    c.flags &&& effectiveRights (c.apply pd s).mem pd c.vaddr = c.flags ↔
      directoryWord s.mem pd c.vaddr &&& pagePresent = 0 ∨
        c.flags &&& directoryWord s.mem pd c.vaddr = c.flags := by
  have hv := c.vaddr_lt
  rw [directoryWord_eq, and_pagePresent]
  simp only [MapCall.apply, pageMap]
  cases he : KernelCustom.ensureTable s pd c.vaddr c.flags with
  | none => exact absurd ((ensureTable_none_iff h c.vaddr c.flags).1 he) hc
  | some s₁ =>
    dsimp only
    obtain ⟨h₁, hp₁, -, hnew, hold⟩ := h.ensureTable hv c.flags_lt he
    obtain ⟨-, hpages⟩ := h₁.setPageEntry hv hp₁ c.paddr c.flags c.entry_bits.2.2
    have hdir := h₁.setPageEntry_dirEntry hv hp₁ c.paddr c.flags
      (by omega : c.vaddr / 4194304 < 1024)
    have htable :
        tableWord (KernelCustom.setPageEntry s₁ pd c.vaddr c.paddr c.flags).mem pd c.vaddr =
          (c.paddr &&& 0xFFFFF000) ||| c.flags ||| pagePresent := by
      rw [tableWord_eq (hdir ▸ hp₁), hpages _ (by omega), if_pos rfl]
    -- the table entry has the flags, so the directory entry decides
    rw [effectiveRights, htable, directoryWord_eq, hdir, Nat.and_comm (dirEntry _ _ _),
      ← Nat.and_assoc, and_or_self_left]
    by_cases hp : dirEntry s.mem pd (c.vaddr / 4194304) % 2 = 0
    · exact iff_of_true (hnew hp) (.inl hp)
    · rw [hold hp]
      exact (or_iff_right hp).symm

/-- From `memory_init` on, whatever `page_map` has mapped before, a mapping gets the rights asked
for exactly when its directory entry is new or has them already. -/
theorem page_map_grants_iff {s₀ s : MemoryState} (hs : s₀.gPagingReady = false)
    (hinit : memoryInit L s₀ mbMagic mbInfoAddr = some s) (calls : List MapCall) (c : MapCall)
    (hc : ¬ MapRefused L.gPageDirectory (calls.foldl (MapCall.apply L.gPageDirectory) s) c) :
    c.flags &&& effectiveRights
        (c.apply L.gPageDirectory (calls.foldl (MapCall.apply L.gPageDirectory) s)).mem
        L.gPageDirectory c.vaddr = c.flags ↔
      directoryWord (calls.foldl (MapCall.apply L.gPageDirectory) s).mem L.gPageDirectory
          c.vaddr &&& pagePresent = 0 ∨
        c.flags &&& directoryWord (calls.foldl (MapCall.apply L.gPageDirectory) s).mem
          L.gPageDirectory c.vaddr = c.flags := by
  obtain ⟨hsized, hres⟩ := memoryInit_frames hs hinit
  have hd := (memoryInit_pageRep hs hinit).pageDirectory hsized hres
  exact (hd.run calls).rights_iff c hc

/-- Pages of other tables leave a directory entry alone. -/
theorem PageMap.mapPages_dir_of_not_mem (M : PageMap) (flags : Nat)
    (hd : ∀ q, lo ≤ q → q < lo + n → q / 1024 ≠ d) : (M.mapPages lo flags n).dir d = M.dir d := by
  induction n with
  | zero => rfl
  | succ n ih =>
    have hne := hd (lo + n) (by omega) (by omega)
    rw [PageMap.mapPages, PageMap.map]
    split
    · exact (Function.update_of_ne hne.symm _ _).trans (ih fun q hl hu => hd q hl (by omega))
    · exact ih fun q hl hu => hd q hl (by omega)

theorem PageMap.mark_dir_of_not_mem (M : PageMap)
    (hd : ∀ q, a / 4096 ≤ q → q < markEnd a size / 4096 → q / 1024 ≠ d) :
    (M.mark a size).dir d = M.dir d := by
  rw [PageMap.mark]
  split
  · rfl
  · exact M.mapPages_dir_of_not_mem _ fun q hl hu => hd q hl (by omega)

theorem PageMap.mapRange_dir (M : PageMap) (a size flags d : Nat) :
    (M.mapRange a size flags).dir d = M.dir d ∨
      (M.mapRange a size flags).dir d = M.dir d ||| (3 ||| (flags &&& 4)) := by
  rw [PageMap.mapRange]
  split
  · exact .inl rfl
  · exact M.mapPages_dir _ _ _ _

/-- The second directory entry, which covers no user page, has no `PAGE_USER`. -/
theorem bootMap_dir_one (total : Nat) : (bootMap total).dir 1 &&& pageUser = 0 := by
  have hprog : markEnd userProgramBase userProgramMaxSize / 4096 = 2304 := by decide
  have hbase : userProgramBase / 4096 = 2048 := by decide
  have hstack : markEnd (userStackTop - userStackSize) userStackSize / 4096 = 3072 := by decide
  have hlow : (userStackTop - userStackSize) / 4096 = 3071 := by decide
  rw [bootMap, PageMap.mark_dir_of_not_mem _ (by rw [hlow, hstack]; omega),
    PageMap.mark_dir_of_not_mem _ (by rw [hbase, hprog]; omega)]
  rcases PageMap.empty.mapRange_dir 0
    (if identityMapBytes < total then identityMapBytes else total) pageWrite 1 with h | h
  · rw [h]
    rfl
  · rw [h]
    rfl

/-- The pages of 17 MiB of memory as they lie in memory. -/
theorem sixteenMib_pageRep : ∃ s,
    memoryInit Layout.sample (singleMap sixteenMib) 0x2BADB002 0x9000 = some s ∧
      PageRep Layout.sample s.mem (bootMap s.gTotalMemoryBytes) ∧ s.Sized ∧
      0x01000000 < s.gTotalMemoryBytes := by
  obtain ⟨s, hs, hfree⟩ := sixteenMib_boot
  obtain ⟨hsized, -⟩ := memoryInit_frames rfl hs
  have hlt := hfree.1
  have hframes := hsized.frames
  exact ⟨s, hs, memoryInit_pageRep rfl hs, hsized, by omega⟩

/-- A directory entry that is there. -/
theorem mapRefused_present (h : directoryWord s.mem pd c.vaddr &&& pagePresent ≠ 0) :
    ¬ MapRefused pd s c := by
  rw [directoryWord_eq, and_pagePresent] at h
  exact fun hr => h hr.1

/-- The first page of the user program area. -/
def programPage : MapCall := ⟨0x00800000, 0x00800000, 6, by decide, by decide, by decide⟩

theorem page_map_grants_program_page : ∃ s,
    memoryInit Layout.sample (singleMap sixteenMib) 0x2BADB002 0x9000 = some s ∧
      6 &&& effectiveRights (programPage.apply Layout.sample.gPageDirectory s).mem
        Layout.sample.gPageDirectory 0x00800000 = 6 := by
  obtain ⟨s, hs, hrep, hsized, -⟩ := sixteenMib_pageRep
  have hcov := bootMap_covered s.gTotalMemoryBytes
  have hpage := (bootMap_page hsized.aligned 0x00800000).1 (.inl (by decide))
  obtain ⟨hdir, -, -⟩ := hrep.entries (v := 0x00800000) hcov (by decide) (by rw [hpage])
  have hpresent := hdir pagePresent (by decide)
  have hrights := hdir 6 (by decide)
  rw [hcov.dir 0x00800000 _ (by rw [hpage]; rfl)] at hpresent hrights
  refine ⟨s, hs, (page_map_grants_iff rfl hs [] programPage (mapRefused_present ?_)).2 (.inr ?_)⟩
  · rw [List.foldl_nil, programPage, hpresent]
    decide
  · rw [List.foldl_nil, programPage, Nat.and_comm]
    exact hrights

/-- A page below the user area, with all rights. -/
def lowUserPage : MapCall := ⟨0x00400000, 0x00400000, 6, by decide, by decide, by decide⟩

/-- The directory entry has no `PAGE_USER`, and `page_map` does not add it. -/
theorem page_map_withholds_user :
    ¬ ∀ (L : Layout) (s₀ s : MemoryState) (mbMagic mbInfoAddr : Nat) (calls : List MapCall)
      (c : MapCall), s₀.gPagingReady = false → memoryInit L s₀ mbMagic mbInfoAddr = some s →
      c.flags &&& (pageWrite ||| pageUser) = c.flags →
      ¬ MapRefused L.gPageDirectory (calls.foldl (MapCall.apply L.gPageDirectory) s) c →
      c.flags &&& effectiveRights
        (c.apply L.gPageDirectory (calls.foldl (MapCall.apply L.gPageDirectory) s)).mem
        L.gPageDirectory c.vaddr = c.flags := by
  intro hall
  obtain ⟨s, hs, hrep, hsized, hlt⟩ := sixteenMib_pageRep
  have hcov := bootMap_covered s.gTotalMemoryBytes
  have hid : identityMapBytes = 134217728 := rfl
  have hnot : ¬ UserAddress 0x00400000 := by
    simp only [UserAddress]
    decide
  have hpage := (bootMap_page hsized.aligned 0x00400000).2 hnot
  rw [if_pos (by omega)] at hpage
  obtain ⟨hdir, -, -⟩ := hrep.entries (v := 0x00400000) hcov (by decide) (by rw [hpage])
  have hpresent := hdir pagePresent (by decide)
  have huser := hdir pageUser (by decide)
  rw [hcov.dir 0x00400000 _ (by rw [hpage]; rfl)] at hpresent
  rw [bootMap_dir_one s.gTotalMemoryBytes] at huser
  have hc : ¬ MapRefused Layout.sample.gPageDirectory s lowUserPage := by
    apply mapRefused_present
    rw [lowUserPage, hpresent]
    decide
  have hd := hrep.pageDirectory hsized (memoryInit_frames rfl hs).2
  have hgrants := hall Layout.sample _ s _ _ [] lowUserPage rfl hs (by decide) hc
  rcases (hd.rights_iff lowUserPage hc).1 hgrants with habsent | hrights
  · rw [lowUserPage, hpresent] at habsent
    cases habsent
  · have hboth : 6 &&& pageUser = pageUser := rfl
    have hbit := congrArg (· &&& pageUser) hrights
    simp only [lowUserPage, hboth] at hbit
    rw [Nat.and_comm 6, Nat.and_assoc, hboth, huser] at hbit
    cases hbit

end KernelCustom
