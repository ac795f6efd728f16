import KernelCustom.Memory

namespace KernelCustom
open Word32 ByteStore
set_option autoImplicit true

def pagePresent : Nat := 0x001
def pageWrite : Nat := 0x002
def pageUser : Nat := 0x004

def identityMapPage (L : Layout) (m : Mem) (physAddr flags : Nat) : Mem :=
  if identityMapBytes ≤ physAddr then m
  else
    let pde := physAddr >>> 22
    let pte := (physAddr >>> 12) &&& 0x3FF
    let tablePhys := L.gPageTables + 4096 * pde
    let entry := L.gPageDirectory + 4 * pde
    let m := store32 m entry
      (load32 m entry ||| (tablePhys ||| pagePresent ||| pageWrite ||| (flags &&& pageUser)))
    store32 m (tablePhys + 4 * pte)
      ((physAddr &&& 0xFFFFF000) ||| pagePresent ||| (flags &&& (pageWrite ||| pageUser)))

/-- `for (addr = start; addr < end; addr += PAGE_SIZE)`, for a bounded number of rounds. -/
def forPages (body : Nat → σ → σ) (fin : Nat) : Nat → Nat → σ → σ
  | 0, _, s => s
  | fuel + 1, addr, s =>
    if addr < fin then forPages body fin fuel (wrap (addr + pageSize)) (body addr s) else s

/-- The page loop as the kernel runs it: between page boundaries `2 ^ 20` rounds always do. -/
def pageLoop (body : Nat → σ → σ) (start fin : Nat) (s : σ) : σ :=
  forPages body fin 1048576 start s

def identityMapRange (L : Layout) (m : Mem) (startPhys size flags : Nat) : Mem :=
  if size = 0 then m
  else
    let start := startPhys &&& 0xFFFFF000
    let fin := alignUp (wrap (startPhys + size)) pageSize
    let fin := if identityMapBytes < fin then identityMapBytes else fin
    pageLoop (fun addr m => identityMapPage L m addr flags) start fin m

def pagingMarkUserRange (L : Layout) (m : Mem) (physAddr size : Nat) : Mem :=
  if size = 0 then m
  else
    let start := physAddr &&& 0xFFFFF000
    let fin := alignUp (wrap (physAddr + size)) pageSize
    pageLoop (fun addr m => identityMapPage L m addr (pageWrite ||| pageUser)) start fin m

/-- `PAGE_USER` is set in the directory entry of an address and in the entry of the page table
that the directory entry points to. -/
def UserAccessible (L : Layout) (m : Mem) (vaddr : Nat) : Prop :=
  let pde := load32 m (L.gPageDirectory + 4 * (vaddr >>> 22))
  let pte := load32 m ((pde &&& 0xFFFFF000) + 4 * ((vaddr >>> 12) &&& 0x3FF))
  pde &&& pageUser ≠ 0 ∧ pte &&& pageUser ≠ 0

/-- Present, writable and user accessible at both levels. -/
def UserWritable (L : Layout) (m : Mem) (vaddr : Nat) : Prop :=
  let rights := pagePresent ||| pageWrite ||| pageUser
  let pde := load32 m (L.gPageDirectory + 4 * (vaddr >>> 22))
  let pte := load32 m ((pde &&& 0xFFFFF000) + 4 * ((vaddr >>> 12) &&& 0x3FF))
  pde &&& rights = rights ∧ pte &&& rights = rights ∧ pte &&& 0xFFFFF000 = vaddr &&& 0xFFFFF000

/-- The flags of each directory entry and of each page; `0` where nothing is mapped. -/
structure PageMap where
  dir : Nat → Nat
  page : Nat → Nat

def PageMap.empty : PageMap := ⟨fun _ => 0, fun _ => 0⟩

/-- Mapping one page: the directory entry gains rights, the page gets the rights asked for. -/
def PageMap.map (M : PageMap) (p flags : Nat) : PageMap :=
  if p < 32768 then
    ⟨Function.update M.dir (p / 1024) (M.dir (p / 1024) ||| (3 ||| (flags &&& 4))),
      Function.update M.page p (1 ||| (flags &&& 6))⟩
  else M

theorem PageMap.map_dir (M : PageMap) (flags : Nat) (hp : p < 32768) (d : Nat) :
    (M.map p flags).dir d =
      if d = p / 1024 then M.dir d ||| (3 ||| (flags &&& 4)) else M.dir d := by
  simp only [map, if_pos hp, Function.update_apply]
  split
  · next hd => rw [hd]
  · rfl

theorem PageMap.map_page (M : PageMap) (flags : Nat) (hp : p < 32768) (q : Nat) :
    (M.map p flags).page q = if q = p then 1 ||| (flags &&& 6) else M.page q := by
  simp only [map, if_pos hp, Function.update_apply]

/-- Mapping `n` pages from page `lo` on. -/
def PageMap.mapPages (M : PageMap) (lo flags : Nat) : Nat → PageMap
  | 0 => M
  | n + 1 => (M.mapPages lo flags n).map (lo + n) flags

theorem PageMap.mapPages_page (M : PageMap) (lo flags n q : Nat) :
    (M.mapPages lo flags n).page q =
      if lo ≤ q ∧ q < lo + n ∧ q < 32768 then 1 ||| (flags &&& 6) else M.page q := by
  induction n with
  | zero => rw [mapPages, if_neg (by omega)]
  | succ n ih =>
    rw [mapPages]
    by_cases hp : lo + n < 32768
    · rw [map_page _ flags hp, ih]
      by_cases hq : q = lo + n
      · rw [if_pos hq, if_pos (by omega)]
      · rw [if_neg hq]
        by_cases hin : lo ≤ q ∧ q < lo + n ∧ q < 32768
        · rw [if_pos hin, if_pos (by omega)]
        · rw [if_neg hin, if_neg (by omega)]
    · rw [map, if_neg hp, ih]
      by_cases hin : lo ≤ q ∧ q < lo + n ∧ q < 32768
      · rw [if_pos hin, if_pos (by omega)]
      · rw [if_neg hin, if_neg (by omega)]

/-- Mapping pages only adds rights to directory entries. -/
theorem PageMap.mapPages_dir (M : PageMap) (lo flags n d : Nat) :
    (M.mapPages lo flags n).dir d = M.dir d ∨
      (M.mapPages lo flags n).dir d = M.dir d ||| (3 ||| (flags &&& 4)) := by
  induction n with
  | zero => exact .inl rfl
  | succ n ih =>
    rw [mapPages]
    by_cases hp : lo + n < 32768
    · rw [map_dir _ flags hp]
      split
      · rcases ih with ih | ih
        · exact .inr (by rw [ih])
        · exact .inr (by rw [ih, Nat.or_assoc, Nat.or_self])
      · exact ih
    · rw [map, if_neg hp]
      exact ih

theorem PageMap.mapPages_dir_of_mem (M : PageMap) (flags : Nat) (hl : lo ≤ q) (hq : q < lo + n)
    (hlt : q < 32768) :
    (M.mapPages lo flags n).dir (q / 1024) = M.dir (q / 1024) ||| (3 ||| (flags &&& 4)) := by
  induction n with
  | zero => omega
  | succ n ih =>
    rw [mapPages]
    by_cases hp : lo + n < 32768
    · rw [map_dir _ flags hp]
      split
      · rcases M.mapPages_dir lo flags n (q / 1024) with h | h
        · rw [h]
        · rw [h, Nat.or_assoc, Nat.or_self]
      · exact ih (by
          by_contra hge
          have hqn : q = lo + n := by omega
          simp_all)
    · rw [map, if_neg hp]
      exact ih (by omega)

/-- A page-table word: a frame number over three flag bits, or nothing. -/
def entryWord (frame flags : Nat) : Nat := if flags = 0 then 0 else 4096 * frame + flags

/-- The directory and the tables in memory say what the page map says. -/
structure PageRep (L : Layout) (m : Mem) (M : PageMap) : Prop where
  dir_lt : ∀ d, M.dir d < 8
  page_lt : ∀ p, M.page p < 8
  dir_none : ∀ d, 32 ≤ d → M.dir d = 0
  directory : ∀ d, d < 1024 →
    load32 m (L.gPageDirectory + 4 * d) = entryWord (L.gPageTables / 4096 + d) (M.dir d)
  tables : ∀ p, p < 32768 → load32 m (L.gPageTables + 4 * p) = entryWord p (M.page p)

theorem entryWord_or (f : Nat) (ha : a < 8) (hb : b < 8) (hb₀ : b ≠ 0) :
    entryWord f a ||| (4096 * f ||| b) = entryWord f (a ||| b) := by
  have hor : a ||| b < 8 := Nat.or_lt_two_pow (n := 3) ha hb
  have hne : a ||| b ≠ 0 := by
    intro h
    exact hb₀ (Nat.or_eq_zero_iff.1 h).2
  have hsum : ∀ c, c < 8 → 4096 * f + c = 4096 * f ||| c := fun c hc =>
    Nat.two_pow_add_eq_or_of_lt (i := 12) (by omega) f
  simp only [entryWord, if_neg hne, hsum _ hor]
  by_cases h₀ : a = 0
  · simp only [h₀, if_true, Nat.zero_or]
  · rw [if_neg h₀, hsum a ha]
    apply Nat.eq_of_testBit_eq
    intro i
    simp only [Nat.testBit_or]
    cases (4096 * f).testBit i <;> cases a.testBit i <;> cases b.testBit i <;> rfl

theorem entryWord_eq (f : Nat) (ha : a < 8) (ha₀ : a ≠ 0) : 4096 * f ||| a = entryWord f a := by
  rw [entryWord, if_neg ha₀, Nat.two_pow_add_eq_or_of_lt (i := 12) (by omega) f]

theorem entryWord_lt (hf : f < 1048576) (ha : a < 8) : entryWord f a < 4294967296 := by
  unfold entryWord
  split <;> omega

theorem flags_ne_zero (flags : Nat) : 3 ||| (flags &&& 4) ≠ 0 ∧ 1 ||| (flags &&& 6) ≠ 0 := by
  constructor
  · intro h
    exact absurd (Nat.or_eq_zero_iff.1 h).1 (by decide)
  · intro h
    exact absurd (Nat.or_eq_zero_iff.1 h).1 (by decide)

theorem flags_lt (flags : Nat) : 3 ||| (flags &&& 4) < 8 ∧ 1 ||| (flags &&& 6) < 8 := by
  have h₄ : flags &&& 4 ≤ 4 := Nat.and_le_right
  have h₆ : flags &&& 6 ≤ 6 := Nat.and_le_right
  exact ⟨Nat.or_lt_two_pow (n := 3) (by decide) (by omega),
    Nat.or_lt_two_pow (n := 3) (by decide) (by omega)⟩

/-- The words that `identity_map_page` stores for a page. -/
theorem identityMapPage_eq (L : Layout) (m : Mem) (flags : Nat) (hp : p < 32768) :
    identityMapPage L m (4096 * p) flags =
      store32 (store32 m (L.gPageDirectory + 4 * (p / 1024))
        (load32 m (L.gPageDirectory + 4 * (p / 1024)) |||
          (4096 * (L.gPageTables / 4096 + p / 1024) ||| (3 ||| (flags &&& 4)))))
        (L.gPageTables + 4 * p) (4096 * p ||| (1 ||| (flags &&& 6))) := by
  have ht := L.tables_aligned
  have h₁ : (4096 * p) >>> 22 = p / 1024 := by
    rw [Nat.shiftRight_eq_div_pow]
    omega
  have h₂ : ((4096 * p) >>> 12) &&& 0x3FF = p % 1024 := by
    rw [Nat.shiftRight_eq_div_pow, Nat.and_two_pow_sub_one_eq_mod (n := 10)]
    omega
  have h₃ : 4096 * p &&& 0xFFFFF000 = 4096 * p := by
    rw [and_page_mask (by omega)]
    omega
  have h₄ : 4096 * (L.gPageTables / 4096 + p / 1024) = L.gPageTables + 4096 * (p / 1024) := by
    omega
  have h₅ : L.gPageTables + 4096 * (p / 1024) + 4 * (p % 1024) = L.gPageTables + 4 * p := by
    omega
  have hlt : ¬ identityMapBytes ≤ 4096 * p := by
    simp only [identityMapBytes]
    omega
  have h₆ : 1 ||| (2 ||| (flags &&& 4)) = 3 ||| (flags &&& 4) :=
    (Nat.or_assoc 1 2 _).symm
  simp only [identityMapPage, if_neg hlt, h₁, h₂, h₃, h₄, h₅, h₆, pagePresent, pageWrite, pageUser,
    Nat.or_assoc]
  rfl

theorem identityMapPage_high (L : Layout) (m : Mem) (flags : Nat) (hp : 32768 ≤ p) :
    identityMapPage L m (4096 * p) flags = m := by
  rw [identityMapPage, if_pos]
  simp only [identityMapBytes]
  omega

/-- `identity_map_page` updates the page map that lies in memory. -/
theorem PageRep.map (h : PageRep L m M) (p flags : Nat) :
    PageRep L (identityMapPage L m (4096 * p) flags) (M.map p flags) := by
  by_cases hp : p < 32768
  · have hdir := L.directory_placed
    have htab := L.tables_placed
    have hapart := L.directory_tables
    have hu := L.below_user
    have hal := L.tables_aligned
    have hd : p / 1024 < 32 := by omega
    have hw := entryWord_lt (f := L.gPageTables / 4096 + p / 1024)
      (a := M.dir (p / 1024) ||| (3 ||| (flags &&& 4))) (by omega)
      (Nat.or_lt_two_pow (n := 3) (h.dir_lt _) (flags_lt flags).1)
    have hv := entryWord_lt (f := p) (by omega) (flags_lt flags).2
    rw [identityMapPage_eq L m flags hp, h.directory _ (by omega),
      entryWord_or _ (h.dir_lt _) (flags_lt flags).1 (flags_ne_zero flags).1,
      entryWord_eq _ (flags_lt flags).2 (flags_ne_zero flags).2]
    constructor
    case dir_lt =>
      intro d
      rw [M.map_dir flags hp]
      split
      · exact Nat.or_lt_two_pow (n := 3) (h.dir_lt _) (flags_lt flags).1
      · exact h.dir_lt d
    case page_lt =>
      intro q
      rw [M.map_page flags hp]
      split
      · exact (flags_lt flags).2
      · exact h.page_lt q
    case dir_none =>
      intro d hd'
      rw [M.map_dir flags hp, if_neg (by omega)]
      exact h.dir_none d hd'
    case directory =>
      intro d hd'
      rw [load32_store32_of_ne _ _ (by omega), M.map_dir flags hp]
      by_cases hdp : d = p / 1024
      · rw [if_pos hdp, hdp, load32_store32_self _ hw]
      · rw [if_neg hdp, load32_store32_of_ne _ _ (by omega)]
        exact h.directory d hd'
    case tables =>
      intro q hq
      rw [M.map_page flags hp]
      by_cases hqp : q = p
      · rw [if_pos hqp, hqp, load32_store32_self _ hv]
      · rw [if_neg hqp, load32_store32_of_ne _ _ (by omega), load32_store32_of_ne _ _ (by omega)]
        exact h.tables q hq
  · rw [identityMapPage_high L m flags (by omega), PageMap.map, if_neg hp]
    exact h

/-- The bytes of the page directory and of the page tables. -/
def TableByte (L : Layout) (x : Nat) : Prop :=
  (L.gPageDirectory ≤ x ∧ x < L.gPageDirectory + 4096) ∨
    (L.gPageTables ≤ x ∧ x < L.gPageTables + 131072)

theorem identityMapPage_apply (L : Layout) (m : Mem) (p flags : Nat) (hx : ¬ TableByte L x) :
    identityMapPage L m (4096 * p) flags x = m x := by
  by_cases hp : p < 32768
  · simp only [TableByte, not_or] at hx
    rw [identityMapPage_eq L m flags hp, store32_apply_of_outside (by omega),
      store32_apply_of_outside (by omega)]
  · rw [identityMapPage_high L m flags (by omega)]

/-- The rule for page loops: an invariant over the page number. -/
theorem pageLoop_induct {body : Nat → σ → σ} (I : Nat → σ → Prop) (hs : start % 4096 = 0)
    (hf : fin % 4096 = 0) (hlt : fin < 4294967296) (hinit : I (start / 4096) s)
    (hstep : ∀ p s, p < fin / 4096 → I p s → I (p + 1) (body (4096 * p) s)) :
    I (max (start / 4096) (fin / 4096)) (pageLoop body start fin s) := by
  suffices h : ∀ fuel start s, start % 4096 = 0 → fin ≤ start + 4096 * fuel → I (start / 4096) s →
      I (max (start / 4096) (fin / 4096)) (forPages body fin fuel start s) from
    h 1048576 start s hs (by omega) hinit
  intro fuel
  induction fuel with
  | zero =>
    intro start s hs hle h
    rw [forPages, Nat.max_eq_left (by omega)]
    exact h
  | succ fuel ih =>
    intro start s hs hle h
    rw [forPages]
    by_cases hlt' : start < fin
    · have hnext : wrap (start + pageSize) = start + 4096 := wrap_of_lt (by rw [pageSize]; omega)
      have hpage : start = 4096 * (start / 4096) := by omega
      have hstep' := hstep _ _ (by omega) h
      rw [← hpage] at hstep'
      have hsucc : (start + 4096) / 4096 = start / 4096 + 1 := by omega
      have hpast : start / 4096 < fin / 4096 := by omega
      have hgo := ih (start + 4096) (body start s) (by omega) (by omega) (by rwa [hsucc])
      rw [hsucc, Nat.max_eq_right hpast] at hgo
      rw [if_pos hlt', hnext, Nat.max_eq_right (Nat.le_of_lt hpast)]
      exact hgo
    · rw [if_neg hlt', Nat.max_eq_left (by omega)]
      exact h

/-- A loop of `identity_map_page` maps a range of pages. -/
theorem PageRep.loop (h : PageRep L m M) (flags start : Nat) (hs : start % 4096 = 0)
    (hf : fin % 4096 = 0) (hlt : fin < 4294967296) :
    PageRep L (pageLoop (fun addr m => identityMapPage L m addr flags) start fin m)
      (M.mapPages (start / 4096) flags (fin / 4096 - start / 4096)) := by
  let I p m := start / 4096 ≤ p ∧
    PageRep L m (M.mapPages (start / 4096) flags (p - start / 4096))
  have hinit : I (start / 4096) m := ⟨Nat.le_refl _, by rw [Nat.sub_self]; exact h⟩
  have hstep : ∀ p m, p < fin / 4096 → I p m →
      I (p + 1) (identityMapPage L m (4096 * p) flags) := by
    intro p m _ hp
    refine ⟨Nat.le_succ_of_le hp.1, ?_⟩
    have hle := hp.1
    have hsucc : p + 1 - start / 4096 = p - start / 4096 + 1 := by omega
    have hpage : start / 4096 + (p - start / 4096) = p := by omega
    rw [hsucc, PageMap.mapPages, hpage]
    exact hp.2.map p flags
  have hgo : I (max (start / 4096) (fin / 4096))
      (pageLoop (fun addr m => identityMapPage L m addr flags) start fin m) :=
    pageLoop_induct I hs hf hlt hinit hstep
  have hcount : fin / 4096 - start / 4096 = max (start / 4096) (fin / 4096) - start / 4096 := by
    omega
  rw [hcount]
  exact hgo.2

theorem pageLoop_apply (L : Layout) (m : Mem) (flags : Nat) (hs : start % 4096 = 0)
    (hf : fin % 4096 = 0) (hlt : fin < 4294967296) (hx : ¬ TableByte L x) :
    pageLoop (fun addr m => identityMapPage L m addr flags) start fin m x = m x := by
  refine pageLoop_induct (fun _ (m' : Mem) => m' x = m x) hs hf hlt rfl ?_
  intro p m' _ h
  rw [identityMapPage_apply L m' p flags hx]
  exact h

/-- The end of the pages that `paging_mark_user_range` marks. -/
def markEnd (physAddr size : Nat) : Nat := alignUp (wrap (physAddr + size)) pageSize

theorem markEnd_aligned (a size : Nat) :
    markEnd a size % 4096 = 0 ∧ markEnd a size < 4294967296 := by
  rw [markEnd, pageSize, alignUp_page]
  omega

/-- What `paging_mark_user_range` does to the page map. -/
def PageMap.mark (M : PageMap) (physAddr size : Nat) : PageMap :=
  if size = 0 then M
  else M.mapPages (physAddr / 4096) (pageWrite ||| pageUser)
    (markEnd physAddr size / 4096 - physAddr / 4096)

theorem PageRep.mark (h : PageRep L m M) (ha : a < 4294967296) (size : Nat) :
    PageRep L (pagingMarkUserRange L m a size) (M.mark a size) := by
  simp only [pagingMarkUserRange, PageMap.mark]
  split
  · exact h
  · have he := markEnd_aligned a size
    have hl := h.loop (pageWrite ||| pageUser) (a / 4096 * 4096) (by omega) he.1 he.2
    rw [Nat.mul_div_cancel _ (by decide)] at hl
    rw [and_page_mask ha]
    exact hl

theorem pagingMarkUserRange_apply (L : Layout) (m : Mem) (ha : a < 4294967296) (size : Nat)
    (hx : ¬ TableByte L x) : pagingMarkUserRange L m a size x = m x := by
  simp only [pagingMarkUserRange]
  split
  · rfl
  · have he := markEnd_aligned a size
    rw [and_page_mask ha]
    exact pageLoop_apply L m _ (by omega) he.1 he.2 hx

theorem identityMapRange_apply (L : Layout) (m : Mem) (ha : a < 4294967296) (size flags : Nat)
    (hx : ¬ TableByte L x) : identityMapRange L m a size flags x = m x := by
  simp only [identityMapRange]
  split
  · rfl
  · have he := markEnd_aligned a size
    rw [and_page_mask ha]
    split
    · exact pageLoop_apply L m _ (by omega) (by decide) (by decide) hx
    · exact pageLoop_apply L m _ (by omega) he.1 he.2 hx

/-- Marking adds rights to a directory entry or leaves it alone. -/
theorem PageMap.mark_dir (M : PageMap) (a size d : Nat) :
    (M.mark a size).dir d = M.dir d ∨ (M.mark a size).dir d = M.dir d ||| 7 := by
  rw [mark]
  split
  · exact .inl rfl
  · exact M.mapPages_dir ..

theorem PageMap.mark_page (M : PageMap) (a size q : Nat) :
    (M.mark a size).page q =
      if size ≠ 0 ∧ a / 4096 ≤ q ∧ q < markEnd a size / 4096 ∧ q < 32768 then 7
      else M.page q := by
  rw [mark]
  by_cases h₀ : size = 0
  · rw [if_pos h₀, if_neg (by omega)]
  · rw [if_neg h₀, mapPages_page]
    by_cases hq : a / 4096 ≤ q ∧ q < markEnd a size / 4096 ∧ q < 32768
    · rw [if_pos (by omega), if_pos ⟨h₀, hq⟩]
      rfl
    · rw [if_neg (by omega), if_neg (by omega)]

/-- The end of the pages that `identity_map_range` maps. -/
def mapEnd (startPhys size : Nat) : Nat :=
  if identityMapBytes < markEnd startPhys size then identityMapBytes else markEnd startPhys size

/-- What `identity_map_range` does to the page map. -/
def PageMap.mapRange (M : PageMap) (startPhys size flags : Nat) : PageMap :=
  if size = 0 then M
  else M.mapPages (startPhys / 4096) flags (mapEnd startPhys size / 4096 - startPhys / 4096)

theorem PageRep.mapRange (h : PageRep L m M) (ha : a < 4294967296) (size flags : Nat) :
    PageRep L (identityMapRange L m a size flags) (M.mapRange a size flags) := by
  simp only [identityMapRange, PageMap.mapRange]
  split
  · exact h
  · have he := markEnd_aligned a size
    have hm : mapEnd a size % 4096 = 0 ∧ mapEnd a size < 4294967296 := by
      unfold mapEnd
      split
      · exact ⟨rfl, by decide⟩
      · exact he
    have hl := h.loop flags (a / 4096 * 4096) (by omega) hm.1 hm.2
    rw [Nat.mul_div_cancel _ (by decide)] at hl
    rw [and_page_mask ha]
    exact hl

/-- A page with all rights at both levels. -/
def PageMap.Grants (M : PageMap) (p : Nat) : Prop := M.dir (p / 1024) = 7 ∧ M.page p = 7

theorem or_seven (h : a < 8) : a ||| 7 = 7 := by
  have hall : ∀ b : Fin 8, b.val ||| 7 = 7 := by decide
  exact hall ⟨a, h⟩

theorem PageMap.Grants.mark {M : PageMap} (h : M.Grants p) (a size : Nat) :
    (M.mark a size).Grants p := by
  refine ⟨?_, ?_⟩
  · rcases M.mark_dir a size (p / 1024) with hd | hd
    · rw [hd, h.1]
    · rw [hd, h.1]
      rfl
  · rw [M.mark_page]
    split
    · rfl
    · exact h.2

/-- Every page of a marked range gets all rights. -/
theorem PageMap.mark_grants {M : PageMap} (hM : ∀ d, M.dir d < 8) (hs : size ≠ 0)
    (hl : a / 4096 ≤ q) (hq : q < markEnd a size / 4096) (hlt : q < 32768) :
    (M.mark a size).Grants q := by
  refine ⟨?_, ?_⟩
  · rw [mark, if_neg hs, mapPages_dir_of_mem M _ hl (by omega) hlt]
    exact or_seven (hM _)
  · rw [mark_page, if_pos ⟨hs, hl, hq, hlt⟩]

theorem entryWord_and (f : Nat) (ha : a < 8) (hc : c < 8) : entryWord f a &&& c = a &&& c := by
  rw [entryWord]
  split
  · next h => rw [h]
  · apply Nat.eq_of_testBit_eq
    intro i
    rw [Nat.testBit_and, Nat.testBit_and, Nat.testBit_two_pow_mul_add (i := 12) f (by omega)]
    split
    · rfl
    · next hi =>
      have hc' : c.testBit i = false :=
        Nat.testBit_lt_two_pow (Nat.lt_of_lt_of_le hc
          (Nat.pow_le_pow_right (n := 2) (i := 3) (by decide) (by omega)))
      rw [hc', Bool.and_false, Bool.and_false]

theorem entryWord_frame (hf : f < 1048576) (ha : a < 8) (ha₀ : a ≠ 0) :
    entryWord f a &&& 0xFFFFF000 = 4096 * f := by
  have hlt := entryWord_lt hf ha
  rw [and_page_mask hlt, entryWord, if_neg ha₀]
  omega

/-- The two words of the walk that the processor makes for an address. -/
theorem PageRep.walk (h : PageRep L m M) (hv : v < 4294967296) :
    load32 m (L.gPageDirectory + 4 * (v >>> 22)) =
        entryWord (L.gPageTables / 4096 + v / 4194304) (M.dir (v / 4194304)) ∧
      (M.dir (v / 4194304) ≠ 0 →
        load32 m ((load32 m (L.gPageDirectory + 4 * (v >>> 22)) &&& 0xFFFFF000) +
          4 * ((v >>> 12) &&& 0x3FF)) = entryWord (v / 4096) (M.page (v / 4096))) := by
  have htab := L.tables_placed
  have hal := L.tables_aligned
  have hu := L.below_user
  have h₁ : v >>> 22 = v / 4194304 := by rw [Nat.shiftRight_eq_div_pow]
  have h₂ : (v >>> 12) &&& 0x3FF = v / 4096 % 1024 := by
    rw [Nat.shiftRight_eq_div_pow, Nat.and_two_pow_sub_one_eq_mod (n := 10)]
  have hdir := h.directory (v / 4194304) (by omega)
  rw [h₁, h₂, hdir]
  refine ⟨rfl, fun hne => ?_⟩
  have hlow : v / 4194304 < 32 := by
    by_contra hge
    exact hne (h.dir_none _ (by omega))
  rw [entryWord_frame (by omega) (h.dir_lt _) hne, ← h.tables (v / 4096) (by omega)]
  congr 1
  omega

theorem PageRep.userAccessible (h : PageRep L m M) (hv : v < 4294967296)
    (hu : UserAccessible L m v) : M.page (v / 4096) &&& pageUser ≠ 0 := by
  obtain ⟨hdir, hpage⟩ := h.walk hv
  simp only [UserAccessible] at hu
  have hne : M.dir (v / 4194304) ≠ 0 := by
    intro h₀
    rw [hdir, h₀, entryWord_and _ (by decide) (by decide)] at hu
    exact hu.1 rfl
  have hp := hu.2
  rw [hpage hne, entryWord_and _ (h.page_lt _) (by decide)] at hp
  exact hp

theorem PageRep.userWritable (h : PageRep L m M) (hv : v < 4294967296)
    (hg : M.Grants (v / 4096)) : UserWritable L m v := by
  obtain ⟨hdir, hpage⟩ := h.walk hv
  obtain ⟨hg₁, hg₂⟩ := hg
  rw [Nat.div_div_eq_div_mul] at hg₁
  have hne : M.dir (v / 4194304) ≠ 0 := by
    rw [hg₁]
    decide
  have hp := hpage hne
  simp only [UserWritable]
  rw [hp, hdir, hg₁, hg₂]
  refine ⟨?_, ?_, ?_⟩
  · exact entryWord_and _ (by decide) (by decide)
  · exact entryWord_and _ (by decide) (by decide)
  · rw [entryWord_frame (by omega) (by decide) (by decide), and_page_mask hv]
    omega

end KernelCustom
