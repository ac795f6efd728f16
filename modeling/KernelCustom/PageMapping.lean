import KernelCustom.FrameAllocator

namespace KernelCustom
open Word32 ByteStore
set_option autoImplicit true

def pmmAllocPage (s : MemoryState) : FrameAnswer := pmmAllocFrame s

def pageGetPhys (m : Mem) (pd vaddr : Nat) : Nat :=
  let pde := vaddr >>> 22
  let pte := (vaddr >>> 12) &&& 0x3FF
  if load32 m (pd + 4 * pde) &&& pagePresent = 0 then 0
  else
    let pt := load32 m (pd + 4 * pde) &&& 0xFFFFF000
    if load32 m (pt + 4 * pte) &&& pagePresent = 0 then 0
    else (load32 m (pt + 4 * pte) &&& 0xFFFFF000) ||| (vaddr &&& 0xFFF)

/-- The second half of `page_map`, with the page table in place. -/
def setPageEntry (s : MemoryState) (pd vaddr paddr flags : Nat) : MemoryState :=
  let pt := load32 s.mem (pd + 4 * (vaddr >>> 22)) &&& 0xFFFFF000
  { s with
    mem := store32 s.mem (pt + 4 * ((vaddr >>> 12) &&& 0x3FF))
      ((paddr &&& 0xFFFFF000) ||| flags ||| pagePresent) }

/-- The first half of `page_map`: a table for the address, from a new frame if there is none.
Nothing when the allocator answers 0. -/
def ensureTable (s : MemoryState) (pd vaddr flags : Nat) : Option MemoryState :=
  let entry := pd + 4 * (vaddr >>> 22)
  if load32 s.mem entry &&& pagePresent = 0 then
    let answer := pmmAllocFrame s
    if answer.result = 0 then none
    else
      some { answer.state with
        mem := store32 (memset answer.state.mem answer.result 0 4096) entry
          (answer.result ||| flags ||| pagePresent) }
  else some s

def pageMap (s : MemoryState) (pd vaddr paddr flags : Nat) : MemoryState :=
  match ensureTable s pd vaddr flags with
  | none => (pmmAllocFrame s).state
  | some s => setPageEntry s pd vaddr paddr flags

/-- The directory entry of an address. -/
def dirEntry (m : Mem) (pd d : Nat) : Nat := load32 m (pd + 4 * d)

/-- What a page directory and the frame bitmap must satisfy for `page_map`. The directory may lie
anywhere; the frame bitmap has room for `maxFrames` frames. -/
structure PageDirectory (s : MemoryState) (pd : Nat) : Prop where
  room : pd + 4096 ≤ 4294967296
  frames : s.gTotalFrames ≤ maxFrames
  distinct : ∀ i j, i < 1024 → j < 1024 → dirEntry s.mem pd i % 2 = 1 →
    dirEntry s.mem pd j % 2 = 1 → dirEntry s.mem pd i / 4096 = dirEntry s.mem pd j / 4096 → i = j
  taken : ∀ i, i < 1024 → dirEntry s.mem pd i % 2 = 1 → ¬ s.Free (dirEntry s.mem pd i / 4096)
  apart : ∀ i, i < 1024 → dirEntry s.mem pd i % 2 = 1 →
    pd + 4096 ≤ 4096 * (dirEntry s.mem pd i / 4096) ∨
      4096 * (dirEntry s.mem pd i / 4096) + 4096 ≤ pd
  unfree : ∀ f, s.Free f → pd + 4096 ≤ 4096 * f ∨ 4096 * f + 4096 ≤ pd

theorem and_pagePresent (n : Nat) : n &&& pagePresent = n % 2 := Nat.and_one_is_mod n

theorem pde_eq (v : Nat) : v >>> 22 = v / 4194304 := by rw [Nat.shiftRight_eq_div_pow]

theorem pte_eq (v : Nat) : (v >>> 12) &&& 0x3FF = v / 4096 % 1024 := by
  rw [Nat.shiftRight_eq_div_pow, Nat.and_two_pow_sub_one_eq_mod (n := 10)]

theorem page_or_offset (w : Nat) (hx : x < 4294967296) :
    (x &&& 0xFFFFF000) ||| (w &&& 0xFFF) = x / 4096 * 4096 + w % 4096 := by
  rw [and_page_mask hx, Nat.and_two_pow_sub_one_eq_mod (n := 12), Nat.mul_comm,
    Nat.two_pow_add_eq_or_of_lt (i := 12) (Nat.mod_lt _ (by decide))]

/-- The words that `page_map` stores: an address over the flags and the present bit. -/
theorem entry_bits (hx : x % 4096 = 0) (hf : flags < 4096) :
    (x ||| flags ||| pagePresent) / 4096 = x / 4096 ∧ (x ||| flags ||| pagePresent) % 2 = 1 ∧
      (x < 4294967296 → x ||| flags ||| pagePresent < 4294967296) := by
  have hlow : flags ||| pagePresent < 2 ^ 12 := Nat.or_lt_two_pow hf (by decide)
  have hodd : (flags ||| pagePresent) % 2 = 1 := by
    rw [Nat.mod_two_eq_one_iff_testBit_zero, Nat.testBit_or]
    exact Bool.or_true _
  have hsum : x ||| flags ||| pagePresent = x + (flags ||| pagePresent) := by
    have hmul : x = 2 ^ 12 * (x / 4096) := by omega
    rw [Nat.or_assoc, hmul, Nat.two_pow_add_eq_or_of_lt hlow]
  rw [hsum]
  omega

/-- Where a page of the address space is mapped to. -/
def pageEntry (m : Mem) (pd page : Nat) : Nat :=
  if dirEntry m pd (page / 1024) % 2 = 0 then 0
  else load32 m (dirEntry m pd (page / 1024) / 4096 * 4096 + 4 * (page % 1024))

theorem pageGetPhys_eq (m : Mem) (pd : Nat) (w : Nat) :
    pageGetPhys m pd w =
      if pageEntry m pd (w / 4096) % 2 = 0 then 0
      else pageEntry m pd (w / 4096) / 4096 * 4096 + w % 4096 := by
  simp only [pageGetPhys, pageEntry, and_pagePresent, pde_eq, pte_eq, dirEntry,
    Nat.div_div_eq_div_mul]
  by_cases hd : load32 m (pd + 4 * (w / 4194304)) % 2 = 0
  · rw [if_pos hd, if_pos hd]
    rfl
  · rw [if_neg hd, if_neg hd, and_page_mask (load32_lt _ _)]
    split
    · rfl
    · rw [page_or_offset _ (load32_lt _ _)]

section
variable {s : MemoryState} {pd : Nat}

/-- Writing into a page table of the directory. -/
theorem PageDirectory.dirEntry_store (h : PageDirectory s pd) (hi : i < 1024)
    (hp : dirEntry s.mem pd i % 2 = 1) (hk : k < 1024) (e : Nat) (hj : j < 1024) :
    dirEntry (store32 s.mem (dirEntry s.mem pd i / 4096 * 4096 + 4 * k) e) pd j =
      dirEntry s.mem pd j := by
  have happart := h.apart i hi hp
  exact load32_store32_of_ne _ _ (by omega)

/-- The word that `page_map` stores into its table. -/
theorem setPageEntry_mem (s : MemoryState) (pd v paddr flags : Nat) :
    (setPageEntry s pd v paddr flags).mem =
      store32 s.mem (dirEntry s.mem pd (v / 4194304) / 4096 * 4096 + 4 * (v / 4096 % 1024))
        ((paddr &&& 0xFFFFF000) ||| flags ||| pagePresent) := by
  simp only [setPageEntry, pde_eq, pte_eq, dirEntry]
  rw [and_page_mask (load32_lt _ _)]

theorem PageDirectory.setPageEntry_dirEntry (h : PageDirectory s pd) (hv : v < 4294967296)
    (hp : dirEntry s.mem pd (v / 4194304) % 2 = 1) (paddr flags : Nat) (hj : j < 1024) :
    dirEntry (setPageEntry s pd v paddr flags).mem pd j = dirEntry s.mem pd j := by
  rw [setPageEntry_mem]
  exact h.dirEntry_store (by omega) hp (by omega) _ hj

/-- `page_map` with its table in place changes one page. -/
theorem PageDirectory.setPageEntry (h : PageDirectory s pd) (hv : v < 4294967296)
    (hp : dirEntry s.mem pd (v / 4194304) % 2 = 1) (paddr flags : Nat)
    (he : (paddr &&& 0xFFFFF000) ||| flags ||| pagePresent < 4294967296) :
    PageDirectory (setPageEntry s pd v paddr flags) pd ∧
      ∀ q, q < 1048576 → pageEntry (KernelCustom.setPageEntry s pd v paddr flags).mem pd q =
        if q = v / 4096 then (paddr &&& 0xFFFFF000) ||| flags ||| pagePresent
        else pageEntry s.mem pd q := by
  have hstore := setPageEntry_mem s pd v paddr flags
  have hdir : ∀ j, j < 1024 → dirEntry (KernelCustom.setPageEntry s pd v paddr flags).mem pd j =
      dirEntry s.mem pd j := fun j hj => h.setPageEntry_dirEntry hv hp paddr flags hj
  constructor
  · refine ⟨h.room, h.frames, ?_, ?_, ?_, h.unfree⟩
    · intro i j hi hj
      rw [hdir i hi, hdir j hj]
      exact h.distinct i j hi hj
    · intro i hi
      rw [hdir i hi]
      exact h.taken i hi
    · intro i hi
      rw [hdir i hi]
      exact h.apart i hi
  · intro q hq
    simp only [pageEntry]
    rw [hdir _ (by omega)]
    by_cases hqv : q = v / 4096
    · have hd : q / 1024 = v / 4194304 := by omega
      rw [if_pos hqv, hd, if_neg (by omega), hstore, hqv, load32_store32_self _ he]
    · rw [if_neg hqv]
      by_cases hq₀ : dirEntry s.mem pd (q / 1024) % 2 = 0
      · rw [if_pos hq₀, if_pos hq₀]
      · rw [if_neg hq₀, if_neg hq₀, hstore, load32_store32_of_ne]
        by_cases hd : q / 1024 = v / 4194304
        · rw [hd]
          omega
        · -- the tables of other entries are other frames
          have hne : dirEntry s.mem pd (q / 1024) / 4096 ≠
              dirEntry s.mem pd (v / 4194304) / 4096 :=
            fun heq => hd (h.distinct _ _ (by omega) (by omega) (by omega) hp heq)
          omega

/-- Clearing a free frame leaves the rest of the memory alone. -/
theorem load32_memset_frame (m : Mem) (hf : f < 131072)
    (ha : a + 4 ≤ 4096 * f ∨ 4096 * f + 4096 ≤ a) :
    load32 (memset m (4096 * f) 0 4096) a = load32 m a := by
  have hset := memset_apply m (4096 * f) 0 (n := 4096) (by omega)
  have hon : SameOn m (memset m (4096 * f) 0 4096) a (a + 4) := by
    intro x hx hx'
    rw [hset, if_neg (by omega)]
  exact hon.load32 (Nat.le_refl a) (Nat.le_refl (a + 4))

theorem PageDirectory.newTable_dirEntry (h : PageDirectory s pd) (hf : s.Free f) (hd : d < 1024)
    (he : e < 4294967296) (hj : j < 1024) :
    dirEntry (store32 (memset s.mem (4096 * f) 0 4096) (pd + 4 * d) e) pd j =
      if j = d then e else dirEntry s.mem pd j := by
  have hframes := h.frames
  simp only [maxFrames, maxPhysMemBytes, pageSize] at hframes
  have hflt := hf.1
  have hpd := h.unfree f hf
  by_cases hjd : j = d
  · rw [if_pos hjd, hjd]
    exact load32_store32_self _ he
  · rw [if_neg hjd, dirEntry, load32_store32_of_ne _ _ (by omega),
      load32_memset_frame _ (by omega) (by omega)]
    rfl

/-- The table of a present entry is no free frame. -/
theorem PageDirectory.table_ne (h : PageDirectory s pd) (hf : s.Free f) (hj : j < 1024)
    (hp : dirEntry s.mem pd j % 2 = 1) : dirEntry s.mem pd j / 4096 ≠ f := by
  rintro rfl
  exact h.taken j hj hp hf

/-- A new table is empty, so it changes no page. -/
theorem PageDirectory.newTable_pageEntry (h : PageDirectory s pd) (hd : d < 1024)
    (hp : dirEntry s.mem pd d % 2 = 0) (hf : s.Free f) (he : e < 4294967296) (he₂ : e % 2 = 1)
    (hef : e / 4096 = f) (hq : q < 1048576) :
    pageEntry (store32 (memset s.mem (4096 * f) 0 4096) (pd + 4 * d) e) pd q =
      pageEntry s.mem pd q := by
  have hframes := h.frames
  simp only [maxFrames, maxPhysMemBytes, pageSize] at hframes
  have hflt := hf.1
  have hpd := h.unfree f hf
  simp only [pageEntry, h.newTable_dirEntry hf hd he (by omega : q / 1024 < 1024)]
  by_cases hqd : q / 1024 = d
  · rw [if_pos hqd, hqd, if_neg (by omega), if_pos hp, hef,
      load32_store32_of_ne _ _ (by omega)]
    refine load32_zero fun x hx hx' => ?_
    rw [memset_apply s.mem (4096 * f) 0 (by omega), if_pos (by omega)]
  · rw [if_neg hqd]
    by_cases hq₀ : dirEntry s.mem pd (q / 1024) % 2 = 0
    · rw [if_pos hq₀, if_pos hq₀]
    · have hne := h.table_ne hf (by omega : q / 1024 < 1024) (by omega)
      have happart := h.apart (q / 1024) (by omega) (by omega)
      rw [if_neg hq₀, if_neg hq₀, load32_store32_of_ne _ _ (by omega),
        load32_memset_frame _ (by omega) (by omega)]

/-- A directory with a new, empty table, in the frame that the allocator took. -/
theorem PageDirectory.newTable (h : PageDirectory s pd) (hd : d < 1024)
    (hp : dirEntry s.mem pd d % 2 = 0) (hf : s.Free f) (he : e < 4294967296) (he₂ : e % 2 = 1)
    (hef : e / 4096 = f) :
    PageDirectory { s with
        gFrameBitmap := setFrame s.gFrameBitmap f
        mem := store32 (memset s.mem (4096 * f) 0 4096) (pd + 4 * d) e } pd ∧
      dirEntry (store32 (memset s.mem (4096 * f) 0 4096) (pd + 4 * d) e) pd d = e ∧
      ∀ q, q < 1048576 →
        pageEntry (store32 (memset s.mem (4096 * f) 0 4096) (pd + 4 * d) e) pd q =
          pageEntry s.mem pd q := by
  have hentry : ∀ j, j < 1024 → _ := fun j => h.newTable_dirEntry hf hd he
  have hpages : ∀ q, q < 1048576 → _ := fun q => h.newTable_pageEntry hd hp hf he he₂ hef
  generalize store32 (memset s.mem (4096 * f) 0 4096) (pd + 4 * d) e = m at hentry hpages ⊢
  have hself : dirEntry m pd d = e := (hentry d hd).trans (if_pos rfl)
  have hdir : ∀ j, j < 1024 → j ≠ d → dirEntry m pd j = dirEntry s.mem pd j :=
    fun j hj hjd => (hentry j hj).trans (if_neg hjd)
  refine ⟨⟨h.room, h.frames, ?_, ?_, ?_, ?_⟩, hself, hpages⟩
  · intro i j hi hj hpi hpj heq
    by_cases hid : i = d <;> by_cases hjd : j = d
    · rw [hid, hjd]
    · subst hid
      rw [hself, hef, hdir j hj hjd] at heq
      rw [hdir j hj hjd] at hpj
      exact absurd heq.symm (h.table_ne hf hj hpj)
    · subst hjd
      rw [hself, hef, hdir i hi hid] at heq
      rw [hdir i hi hid] at hpi
      exact absurd heq (h.table_ne hf hi hpi)
    · rw [hdir i hi hid] at hpi heq
      rw [hdir j hj hjd] at hpj heq
      exact h.distinct i j hi hj hpi hpj heq
  · intro i hi hpi hfree
    have hfree' := (s.free_setFrame f _).1 hfree
    by_cases hid : i = d
    · subst hid
      rw [hself, hef] at hfree'
      exact hfree'.2 rfl
    · rw [hdir i hi hid] at hpi hfree'
      exact h.taken i hi hpi hfree'.1
  · intro i hi hpi
    by_cases hid : i = d
    · subst hid
      rw [hself, hef]
      exact h.unfree f hf
    · rw [hdir i hi hid] at hpi ⊢
      exact h.apart i hi hpi
  · intro g hg
    exact h.unfree g ((s.free_setFrame f g).1 hg).1

theorem PageDirectory.of_bitmap (h : PageDirectory s pd) (bitmap : Nat → Nat)
    (hfree : ∀ f, MemoryState.Free { s with gFrameBitmap := bitmap } f → s.Free f) :
    PageDirectory { s with gFrameBitmap := bitmap } pd :=
  ⟨h.room, h.frames, h.distinct, fun i hi hp hf => h.taken i hi hp (hfree _ hf), h.apart,
    fun f hf => h.unfree f (hfree f hf)⟩

/-- An allocation leaves the directory valid. -/
theorem PageDirectory.alloc (h : PageDirectory s pd) :
    PageDirectory (pmmAllocFrame s).state pd ∧ (pmmAllocFrame s).state.mem = s.mem := by
  rcases pmmAllocFrame_lowest h.frames with ⟨-, -, hst⟩ | ⟨f, -, -, -, hst⟩
  · rw [hst]
    exact ⟨h, rfl⟩
  · rw [hst]
    exact ⟨h.of_bitmap _ fun g hg => ((s.free_setFrame f g).1 hg).1, rfl⟩

/-- The allocator answers 0 when no frame is free, and also when it takes frame 0. -/
theorem pmmAllocFrame_zero_iff (h : s.gTotalFrames ≤ maxFrames) :
    (pmmAllocFrame s).result = 0 ↔ s.Free 0 ∨ ∀ f, ¬ s.Free f := by
  rcases pmmAllocFrame_lowest h with ⟨hnone, hr, -⟩ | ⟨f, hf, hlow, hr, -⟩
  · exact iff_of_true hr (.inr hnone)
  · rw [hr]
    constructor
    · intro h₀
      have hz : f = 0 := by omega
      exact .inl (hz ▸ hf)
    · rintro (h₀ | hnone)
      · have hz : f = 0 := by
          by_contra hne
          exact hlow 0 (by omega) h₀
        rw [hz]
      · exact absurd hf (hnone f)

/-- The call gets no new table. -/
theorem ensureTable_none_iff (h : PageDirectory s pd) (v flags : Nat) :
    ensureTable s pd v flags = none ↔
      dirEntry s.mem pd (v / 4194304) % 2 = 0 ∧ (s.Free 0 ∨ ∀ f, ¬ s.Free f) := by
  rw [← pmmAllocFrame_zero_iff h.frames]
  simp only [ensureTable, and_pagePresent, pde_eq, dirEntry]
  by_cases hp : load32 s.mem (pd + 4 * (v / 4194304)) % 2 = 0
  · rw [if_pos hp, and_iff_right hp]
    split
    · next hz => exact iff_of_true rfl hz
    · next hz => exact iff_of_false (Option.some_ne_none _) hz
  · rw [if_neg hp]
    exact iff_of_false (Option.some_ne_none _) fun hn => hp hn.1

/-- A bit set in a word stays set in every word it is or-ed into. -/
theorem and_or_self_left (x flags y : Nat) : flags &&& (x ||| flags ||| y) = flags := by
  apply Nat.eq_of_testBit_eq
  intro i
  simp only [Nat.testBit_and, Nat.testBit_or]
  cases flags.testBit i <;> simp

/-- A table for the address is there, and no page is mapped in another way. A new directory entry
has the flags of the call, and one that was there stays as it was. -/
theorem PageDirectory.ensureTable (h : PageDirectory s pd) (hv : v < 4294967296)
    (hf : flags < 4096) (he : ensureTable s pd v flags = some s') :
    PageDirectory s' pd ∧ dirEntry s'.mem pd (v / 4194304) % 2 = 1 ∧
      (∀ q, q < 1048576 → pageEntry s'.mem pd q = pageEntry s.mem pd q) ∧
      (dirEntry s.mem pd (v / 4194304) % 2 = 0 →
        flags &&& dirEntry s'.mem pd (v / 4194304) = flags) ∧
      (¬ dirEntry s.mem pd (v / 4194304) % 2 = 0 →
        dirEntry s'.mem pd (v / 4194304) = dirEntry s.mem pd (v / 4194304)) := by
  simp only [KernelCustom.ensureTable, and_pagePresent, pde_eq] at he
  by_cases hp : load32 s.mem (pd + 4 * (v / 4194304)) % 2 = 0
  · rw [if_pos hp] at he
    rcases pmmAllocFrame_lowest h.frames with ⟨-, hr, -⟩ | ⟨f, hfree, -, hr, hst⟩
    · rw [if_pos hr] at he
      cases he
    · rw [hr, hst] at he
      have hframes := h.frames
      simp only [maxFrames, maxPhysMemBytes, pageSize] at hframes
      have hflt := hfree.1
      obtain ⟨hdiv, hodd, hlt⟩ := entry_bits (x := 4096 * f) (by omega) hf
      obtain ⟨hd, hself, hpages⟩ := h.newTable (d := v / 4194304) (by omega) hp hfree
        (hlt (by omega)) hodd (hdiv.trans (by omega))
      split at he
      · cases he
      · cases he
        refine ⟨hd, by rw [hself]; exact hodd, hpages, fun _ => ?_, fun hn => absurd hp hn⟩
        rw [hself]
        exact and_or_self_left _ _ _
  · rw [if_neg hp] at he
    cases he
    exact ⟨h, by rw [dirEntry]; omega, fun q _ => rfl, fun hn => absurd hn hp, fun _ => rfl⟩

end

/-- The arguments of a call of `page_map`. -/
structure MapCall where
  vaddr : Nat
  paddr : Nat
  flags : Nat
  vaddr_lt : vaddr < 4294967296
  paddr_lt : paddr < 4294967296
  flags_lt : flags < 0x1000

/-- The word that a call stores into the table. -/
theorem MapCall.entry_bits (c : MapCall) :
    ((c.paddr &&& 0xFFFFF000) ||| c.flags ||| pagePresent) / 4096 = c.paddr / 4096 ∧
      ((c.paddr &&& 0xFFFFF000) ||| c.flags ||| pagePresent) % 2 = 1 ∧
      (c.paddr &&& 0xFFFFF000) ||| c.flags ||| pagePresent < 4294967296 := by
  have hmask : (c.paddr &&& 0xFFFFF000) % 4096 = 0 ∧ c.paddr &&& 0xFFFFF000 < 4294967296 ∧
      (c.paddr &&& 0xFFFFF000) / 4096 = c.paddr / 4096 := by
    have hlt := c.paddr_lt
    rw [and_page_mask hlt]
    omega
  obtain ⟨hdiv, hodd, hlt⟩ := KernelCustom.entry_bits hmask.1 c.flags_lt
  exact ⟨hdiv.trans hmask.2.2, hodd, hlt hmask.2.1⟩

def MapCall.apply (pd : Nat) (s : MemoryState) (c : MapCall) : MemoryState :=
  pageMap s pd c.vaddr c.paddr c.flags

/-- The call needs a table and finds no free frame for it. -/
def NoFrame (pd : Nat) (s : MemoryState) (c : MapCall) : Prop :=
  dirEntry s.mem pd (c.vaddr / 4194304) % 2 = 0 ∧ ∀ f, ¬ s.Free f

/-- The call needs a table, and no frame is free or frame 0 is, which stands for a failure. -/
def MapRefused (pd : Nat) (s : MemoryState) (c : MapCall) : Prop :=
  dirEntry s.mem pd (c.vaddr / 4194304) % 2 = 0 ∧ (s.Free 0 ∨ ∀ f, ¬ s.Free f)

open Classical in
/-- The last call of a sequence that maps the page of an address and is not refused. -/
noncomputable def lastMapping (refused : MemoryState → MapCall → Prop) (pd : Nat) :
    MemoryState → List MapCall → Nat → Option MapCall
  | _, [], _ => none
  | s, c :: calls, w =>
    (lastMapping refused pd (c.apply pd s) calls w).or
      (if ¬ refused s c ∧ c.vaddr / 4096 = w / 4096 then some c else none)

/-- What an address is mapped to by a call, or was mapped to before. -/
def translated (before : Nat) (w : Nat) (c : Option MapCall) : Nat :=
  c.elim before fun c => (c.paddr &&& 0xFFFFF000) ||| (w &&& 0xFFF)

/-- One call of `page_map`. -/
theorem PageDirectory.apply (h : PageDirectory s pd) (c : MapCall) :
    PageDirectory (c.apply pd s) pd ∧
      (MapRefused pd s c → ∀ w, pageGetPhys (c.apply pd s).mem pd w = pageGetPhys s.mem pd w) ∧
      (¬ MapRefused pd s c → ∀ w, w < 4294967296 →
        pageGetPhys (c.apply pd s).mem pd w =
          if c.vaddr / 4096 = w / 4096 then (c.paddr &&& 0xFFFFF000) ||| (w &&& 0xFFF)
          else pageGetPhys s.mem pd w) := by
  have hnone := ensureTable_none_iff h c.vaddr c.flags
  simp only [MapCall.apply, pageMap]
  cases he : KernelCustom.ensureTable s pd c.vaddr c.flags with
  | none =>
    have hr : MapRefused pd s c := hnone.1 he
    obtain ⟨hd, hmem⟩ := h.alloc
    refine ⟨hd, fun _ w => ?_, fun hn => absurd hr hn⟩
    simp only [hmem]
  | some s₁ =>
    have hr : ¬ MapRefused pd s c := fun hr => by
      rw [hnone.2 hr] at he
      cases he
    obtain ⟨h₁, hp₁, hpages₁, -⟩ := h.ensureTable c.vaddr_lt c.flags_lt he
    obtain ⟨hdiv, hodd, hlt⟩ := c.entry_bits
    obtain ⟨h₂, hpages₂⟩ := h₁.setPageEntry c.vaddr_lt hp₁ c.paddr c.flags hlt
    refine ⟨h₂, fun hn => absurd hn hr, fun _ w hw => ?_⟩
    dsimp only
    rw [pageGetPhys_eq, pageGetPhys_eq, hpages₂ _ (by omega)]
    by_cases hpage : w / 4096 = c.vaddr / 4096
    · rw [if_pos hpage, if_pos hpage.symm, if_neg (by omega), hdiv, page_or_offset _ c.paddr_lt]
    · have hne : ¬ c.vaddr / 4096 = w / 4096 := fun heq => hpage heq.symm
      rw [if_neg hpage, if_neg hne, hpages₁ _ (by omega)]

theorem PageDirectory.run (h : PageDirectory s pd) (calls : List MapCall) :
    PageDirectory (calls.foldl (MapCall.apply pd) s) pd := by
  induction calls generalizing s with
  | nil => exact h
  | cons c calls ih => exact ih (h.apply c).1

theorem PageDirectory.translations (h : PageDirectory s pd) (calls : List MapCall)
    (hw : w < 4294967296) :
    pageGetPhys (calls.foldl (MapCall.apply pd) s).mem pd w =
      translated (pageGetPhys s.mem pd w) w (lastMapping (MapRefused pd) pd s calls w) := by
  induction calls generalizing s with
  | nil => rfl
  | cons c calls ih =>
    obtain ⟨hnext, hrefused, hmapped⟩ := h.apply c
    rw [List.foldl_cons, ih hnext, lastMapping]
    cases lastMapping (MapRefused pd) pd (c.apply pd s) calls w with
    | some c' => rfl
    | none =>
      rw [Option.none_or]
      by_cases hr : MapRefused pd s c
      · rw [if_neg fun hn => hn.1 hr]
        exact hrefused hr w
      · change pageGetPhys (c.apply pd s).mem pd w = _
        rw [hmapped hr w hw]
        by_cases hpage : c.vaddr / 4096 = w / 4096
        · rw [if_pos hpage, if_pos ⟨hr, hpage⟩]
          rfl
        · rw [if_neg hpage, if_neg fun hn => hpage hn.2]
          rfl

/-- `page_map` and `page_get_phys` implement an address map. -/
theorem page_map_last_call_wins (h : PageDirectory s pd) (calls : List MapCall) :
    (∀ w, w < 4294967296 → pageGetPhys (calls.foldl (MapCall.apply pd) s).mem pd w =
      translated (pageGetPhys s.mem pd w) w (lastMapping (MapRefused pd) pd s calls w)) ∧
    ∀ pre c post, calls = pre ++ c :: post →
      MapRefused pd (pre.foldl (MapCall.apply pd) s) c →
      ∀ w, pageGetPhys ((pre ++ [c]).foldl (MapCall.apply pd) s).mem pd w =
        pageGetPhys (pre.foldl (MapCall.apply pd) s).mem pd w := by
  refine ⟨fun w hw => h.translations calls hw, ?_⟩
  rintro pre c post - hr w
  rw [List.foldl_append]
  exact ((h.run pre).apply c).2.1 hr w

/-- A state with empty memory and two frames, of which a bitmap tells what is free. -/
def twoFrames (bitmap : Nat) : MemoryState where
  mem := fun _ => 0
  gHeapHead := 0
  gHeapReady := false
  gTotalMemoryBytes := 0x2000
  gTotalFrames := 2
  gFrameBitmap := fun _ => bitmap
  gPagingReady := false

/-- An empty directory behind the two frames. -/
theorem twoFrames_directory (bitmap : Nat) : PageDirectory (twoFrames bitmap) 0x2000 := by
  have hzero : ∀ i, dirEntry (twoFrames bitmap).mem 0x2000 i = 0 :=
    fun i => load32_zero fun _ _ _ => rfl
  have habsent : ∀ i, ¬ dirEntry (twoFrames bitmap).mem 0x2000 i % 2 = 1 := by
    intro i
    rw [hzero]
    decide
  have hframes : 2 ≤ maxFrames := by decide
  refine ⟨by decide, hframes, fun i _ _ _ hp => absurd hp (habsent i),
    fun i _ hp => absurd hp (habsent i), fun i _ hp => absurd hp (habsent i), fun f hf => ?_⟩
  have hlt : f < 2 := hf.1
  omega

def sampleMapCall : MapCall := ⟨0x08000000, 0x1000, 3, by decide, by decide, by decide⟩

theorem page_map_last_call_wins_in_two_frames :
    (∀ w, w < 4294967296 →
      pageGetPhys ([sampleMapCall].foldl (MapCall.apply 0x2000) (twoFrames 1)).mem 0x2000 w =
        translated (pageGetPhys (twoFrames 1).mem 0x2000 w) w
          (lastMapping (MapRefused 0x2000) 0x2000 (twoFrames 1) [sampleMapCall] w)) ∧
    ∀ pre c post, [sampleMapCall] = pre ++ c :: post →
      MapRefused 0x2000 (pre.foldl (MapCall.apply 0x2000) (twoFrames 1)) c →
      ∀ w, pageGetPhys ((pre ++ [c]).foldl (MapCall.apply 0x2000) (twoFrames 1)).mem 0x2000 w =
        pageGetPhys (pre.foldl (MapCall.apply 0x2000) (twoFrames 1)).mem 0x2000 w :=
  page_map_last_call_wins (twoFrames_directory 1) [sampleMapCall]

/-- When frame 0 is free, the allocator gives it out, and `page_map` takes that for a failure. -/
theorem page_map_fails_on_frame_zero :
    ¬ ∀ (s : MemoryState) (pd : Nat) (calls : List MapCall), PageDirectory s pd →
      ∀ w, w < 4294967296 → pageGetPhys (calls.foldl (MapCall.apply pd) s).mem pd w =
        translated (pageGetPhys s.mem pd w) w (lastMapping (NoFrame pd) pd s calls w) := by
  intro h
  have hw := h (twoFrames 0) 0x2000 [sampleMapCall] (twoFrames_directory 0) 0x08000000 (by decide)
  have hfree : ¬ NoFrame 0x2000 (twoFrames 0) sampleMapCall :=
    fun hn => hn.2 0 ⟨by decide, by decide⟩
  have hget : pageGetPhys ([sampleMapCall].foldl (MapCall.apply 0x2000) (twoFrames 0)).mem 0x2000
      0x08000000 = 0 := by decide +kernel
  rw [hget, lastMapping, lastMapping, Option.none_or, if_pos ⟨hfree, rfl⟩] at hw
  exact absurd hw (by decide)

end KernelCustom
