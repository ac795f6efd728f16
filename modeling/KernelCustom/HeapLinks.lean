import KernelCustom.Heap

namespace KernelCustom
open Word32 ByteStore BlockTiling
set_option autoImplicit true

/-- The header bytes of a block say what the block is and where its neighbours are. -/
structure Header (m : Mem) (b : Block) (prev next : Nat) : Prop where
  magic : blockMagic m b.addr = blockMagicWord
  size : blockSize m b.addr = b.size
  free : blockFree m b.addr = if b.free then 1 else 0
  next : blockNext m b.addr = next
  prev : blockPrev m b.addr = prev

def headAddr : List Block → Nat → Nat
  | [], last => last
  | b :: _, _ => b.addr

def lastAddr : Nat → List Block → Nat
  | first, [] => first
  | _, b :: bs => lastAddr b.addr bs

/-- A stretch of the doubly linked list in memory, with the addresses on either side of it. -/
def Linked (m : Mem) : Nat → List Block → Nat → Prop
  | _, [], _ => True
  | prev, b :: bs, last => Header m b prev (headAddr bs last) ∧ Linked m b.addr bs last

theorem linked_append :
    Linked m prev (xs ++ ys) last ↔
      Linked m prev xs (headAddr ys last) ∧ Linked m (lastAddr prev xs) ys last := by
  induction xs generalizing prev with
  | nil => simp [Linked, lastAddr]
  | cons x xs ih =>
    have hh : headAddr (xs ++ ys) last = headAddr xs (headAddr ys last) := by
      cases xs <;> rfl
    simp only [List.cons_append, Linked, lastAddr, hh, ih, and_assoc]

theorem lastAddr_concat (prev : Nat) (bs : List Block) (b : Block) :
    lastAddr prev (bs ++ [b]) = b.addr := by
  induction bs generalizing prev with
  | nil => rfl
  | cons c bs ih => exact ih c.addr

theorem Header.sameOn (h : Header m b p q) (hs : SameOn m m' b.addr (b.addr + 20)) :
    Header m' b p q := by
  refine ⟨?_, ?_, ?_, ?_, ?_⟩
  · exact (hs.load32 (by omega) (by omega)).trans h.magic
  · exact (hs.load32 (by omega) (by omega)).trans h.size
  · exact (hs _ (by omega) (by omega)).trans h.free
  · exact (hs.load32 (by omega) (by omega)).trans h.next
  · exact (hs.load32 (by omega) (by omega)).trans h.prev

/-- The list depends on the header bytes of its blocks only. -/
theorem Linked.sameOn (h : Linked m prev bs last)
    (hs : ∀ b ∈ bs, SameOn m m' b.addr (b.addr + 20)) : Linked m' prev bs last := by
  induction bs generalizing prev with
  | nil => trivial
  | cons b bs ih =>
    exact ⟨h.1.sameOn (hs b (by simp)), ih h.2 fun c hc => hs c (by simp [hc])⟩

/-- Every block is long enough to hold a header. -/
def Roomy (bs : List Block) : Prop := ∀ b ∈ bs, 32 ≤ b.size

theorem Linked.sameOn_tiles (h : Linked m prev bs last) (ht : Tiles lo bs hi) (hr : Roomy bs)
    (hs : SameOn m m' lo hi) : Linked m' prev bs last := by
  apply h.sameOn
  intro b hb
  have := ht.bounds hb
  have := hr b hb
  exact hs.mono (by omega) (by omega)

theorem Header.setPrev (h : Header m b p q) (hn : new < 4294967296) :
    Header (KernelCustom.setPrev m b.addr new) b new q := by
  obtain ⟨hm, hs, hf, hx, -⟩ := h
  refine ⟨?_, ?_, ?_, ?_, ?_⟩
  · rw [← hm]
    exact load32_store32_of_ne m new (by omega)
  · rw [← hs]
    exact load32_store32_of_ne m new (by omega)
  · rw [← hf]
    exact store32_apply_of_outside (by omega)
  · rw [← hx]
    exact load32_store32_of_ne m new (by omega)
  · exact load32_store32_self m hn

theorem Header.setSize (h : Header m b p q) (hv : v < 4294967296) :
    Header (KernelCustom.setSize m b.addr v) { b with size := v } p q := by
  obtain ⟨hm, -, hf, hx, hp⟩ := h
  refine ⟨?_, load32_store32_self m hv, ?_, ?_, ?_⟩
  · rw [← hm]
    exact load32_store32_of_ne m v (by simp only; omega)
  · rw [← hf]
    exact store32_apply_of_outside (by simp only; omega)
  · rw [← hx]
    exact load32_store32_of_ne m v (by simp only; omega)
  · rw [← hp]
    exact load32_store32_of_ne m v (by simp only; omega)

theorem Header.setNext (h : Header m b p q) (hv : v < 4294967296) :
    Header (KernelCustom.setNext m b.addr v) b p v := by
  obtain ⟨hm, hs, hf, -, hp⟩ := h
  refine ⟨?_, ?_, ?_, load32_store32_self m hv, ?_⟩
  · rw [← hm]
    exact load32_store32_of_ne m v (by omega)
  · rw [← hs]
    exact load32_store32_of_ne m v (by omega)
  · rw [← hf]
    exact store32_apply_of_outside (by omega)
  · rw [← hp]
    exact load32_store32_of_ne m v (by omega)

theorem Header.setFree (h : Header m b p q) (f : Bool) :
    Header (KernelCustom.setFree m b.addr (if f then 1 else 0)) { b with free := f } p q := by
  obtain ⟨hm, hs, -, hx, hp⟩ := h
  refine ⟨?_, ?_, Function.update_self _ _ _, ?_, ?_⟩
  · rw [← hm]
    exact load32_update_of_ne m _ (by simp only; omega)
  · rw [← hs]
    exact load32_update_of_ne m _ (by simp only; omega)
  · rw [← hx]
    exact load32_update_of_ne m _ (by simp only; omega)
  · rw [← hp]
    exact load32_update_of_ne m _ (by simp only; omega)

/-- Giving the first block of a stretch a new predecessor. -/
theorem Linked.relink (h : Linked m old bs 0) (ht : Tiles lo bs hi) (hr : Roomy bs)
    (hlo : 0 < lo) (hn : new < 4294967296) :
    Linked (KernelCustom.relink m (headAddr bs 0) new) new bs 0 := by
  cases bs with
  | nil => trivial
  | cons b bs =>
    obtain ⟨hb, ht'⟩ := ht
    have hsz := hr b (by simp)
    have hne : b.addr ≠ 0 := by omega
    simp only [headAddr, KernelCustom.relink, ne_eq, hne, not_false_eq_true, if_true]
    refine ⟨h.1.setPrev hn, ?_⟩
    refine h.2.sameOn_tiles ht' (fun c hc => hr c (by simp [hc])) ?_
    exact store32_sameOn m new (by omega)

/-- Relinking writes inside one header of the stretch. -/
theorem relink_apply (m : Mem) (new : Nat) (hx : ∀ b ∈ bs, x < b.addr ∨ b.addr + 20 ≤ x) :
    relink m (headAddr bs 0) new x = m x := by
  cases bs with
  | nil => rfl
  | cons b bs =>
    have := hx b (by simp)
    rw [headAddr, relink]
    by_cases hne : b.addr ≠ 0
    · rw [if_pos hne, setPrev, store32_apply_of_outside (by omega)]
    · rw [if_neg hne]

theorem relink_sameOn (m : Mem) (new lo : Nat) (ht : Tiles mid bs hi) (hlt : top ≤ mid) :
    SameOn m (relink m (headAddr bs 0) new) lo top := by
  intro x _ hx
  apply relink_apply
  intro b hb
  have := ht.bounds hb
  omega

/-- The five stores that make a new free header. -/
def writeHeader (m : Mem) (b size next prev : Nat) : Mem :=
  setPrev (setNext (setFree (setSize (setMagic m b blockMagicWord) b size) b 1) b next) b prev

theorem writeHeader_header (m : Mem) (n : Nat) (hs : sz < 4294967296) (hn : nx < 4294967296)
    (hp : pv < 4294967296) : Header (writeHeader m n sz nx pv) ⟨n, sz, true⟩ pv nx := by
  have hm : blockMagicWord < 4294967296 := by decide
  refine ⟨?_, ?_, ?_, ?_, ?_⟩
  · simp (disch := omega) only [blockMagic, writeHeader, setPrev, setNext, setFree, setSize,
      setMagic, load32_store32_of_ne, load32_update_of_ne, load32_store32_self]
  · simp (disch := omega) only [blockSize, writeHeader, setPrev, setNext, setFree, setSize,
      setMagic, load32_store32_of_ne, load32_update_of_ne, load32_store32_self]
  · simp (disch := omega) only [blockFree, writeHeader, setPrev, setNext, setFree,
      store32_apply_of_outside, Function.update_self, if_true]
  · simp (disch := omega) only [blockNext, writeHeader, setPrev, setNext, load32_store32_of_ne,
      load32_store32_self]
  · simp (disch := omega) only [blockPrev, writeHeader, setPrev, load32_store32_self]

theorem writeHeader_sameOn (m : Mem) (sz nx pv : Nat) (ho : hi ≤ n ∨ n + 20 ≤ lo) :
    SameOn m (writeHeader m n sz nx pv) lo hi := by
  intro x hl hh
  simp (disch := omega) only [writeHeader, setPrev, setNext, setFree, setSize, setMagic,
    store32_apply_of_outside, Function.update_of_ne]

/-- The three stores that turn a header into that of a used block of another size. -/
def shrinkHeader (m : Mem) (b size next : Nat) : Mem :=
  setFree (setSize (setNext m b next) b size) b 0

theorem Header.shrink (h : Header m b p q) (hs : sz < 4294967296) (hn : nx < 4294967296) :
    Header (shrinkHeader m b.addr sz nx) ⟨b.addr, sz, false⟩ p nx :=
  ((h.setNext hn).setSize hs).setFree false

theorem shrinkHeader_sameOn (m : Mem) (sz nx : Nat) (ho : hi ≤ n ∨ n + 20 ≤ lo) :
    SameOn m (shrinkHeader m n sz nx) lo hi := by
  intro x hl hh
  simp (disch := omega) only [shrinkHeader, setNext, setFree, setSize, store32_apply_of_outside,
    Function.update_of_ne]

end KernelCustom
