import KernelCustom.HeapOperations

namespace KernelCustom
open Word32 ByteStore BlockTiling
set_option autoImplicit true

/-- What the rest of the kernel does with the heap: the four calls, and stores into payloads. -/
inductive HeapCall where
  | kmalloc (size : Nat)
  | kcalloc (count size : Nat)
  | krealloc (ptr size : Nat)
  | kfree (ptr : Nat)
  | write (addr : Nat) (value : UInt8)

/-- The number of bytes a call asks for. -/
def HeapCall.request : HeapCall → Nat
  | kmalloc size => size
  | kcalloc count size => count * size
  | krealloc _ size => size
  | kfree _ => 0
  | write _ _ => 0

/-- A call returns a pointer (`NULL` where the function is `void`) and the new state; a call
that never returns has no value. -/
def HeapCall.run (L : Layout) (s : MemoryState) : HeapCall → Option (Nat × MemoryState)
  | kmalloc size => KernelCustom.kmalloc L s size
  | kcalloc count size => KernelCustom.kcalloc L s count size
  | krealloc ptr size => KernelCustom.krealloc L s ptr size
  | kfree ptr => some (0, KernelCustom.kfree s ptr)
  | write addr value => some (0, { s with mem := Function.update s.mem addr value })

/-- The live pointers, each with the number of bytes that was asked for. -/
abbrev Live := Nat → Option Nat

/-- The live pointers after a call has returned `p`. -/
def HeapCall.track (live : Live) (p : Nat) : HeapCall → Live
  | kmalloc size => if p = 0 then live else Function.update live p (some size)
  | kcalloc count size => if p = 0 then live else Function.update live p (some (count * size))
  | krealloc ptr size =>
    if ptr ≠ 0 ∧ size = 0 then Function.update live ptr none
    else if p = 0 then live
    else Function.update (Function.update live ptr none) p (some size)
  | kfree ptr => Function.update live ptr none
  | write _ _ => live

/-- Arguments are 32-bit words, `kfree` and `krealloc` get `NULL` or a live pointer, and stores
stay inside the bytes that were asked for. -/
def HeapCall.Allowed (live : Live) : HeapCall → Prop
  | kmalloc size => size < 4294967296
  | kcalloc count size => count < 4294967296 ∧ size < 4294967296
  | krealloc ptr size => (ptr = 0 ∨ (live ptr).isSome) ∧ size < 4294967296
  | kfree ptr => ptr = 0 ∨ (live ptr).isSome
  | write addr _ => ∃ p n, live p = some n ∧ p ≤ addr ∧ addr < p + n

/-- A heap together with the pointers its callers hold. -/
structure Client where
  heap : MemoryState
  live : Live

/-- The states reached from `heap_init` by calls that all meet a condition. -/
inductive Reachable (L : Layout) (limit : MemoryState → HeapCall → Prop) : Client → Prop where
  | init {s : MemoryState} :
      s.gHeapReady = false → Reachable L limit ⟨heapInit L s, fun _ => none⟩
  | step {c : Client} {call : HeapCall} {p : Nat} {s' : MemoryState} :
      Reachable L limit c → call.Allowed c.live → limit c.heap call →
      call.run L c.heap = some (p, s') → Reachable L limit ⟨s', call.track c.live p⟩

theorem Reachable.mono {limit limit' : MemoryState → HeapCall → Prop} (h : Reachable L limit c)
    (himp : ∀ s call, limit s call → limit' s call) : Reachable L limit' c := by
  induction h with
  | init hs => exact .init hs
  | step _ ha hl he ih => exact .step ih ha (himp _ _ hl) he

/-- The live pointers are the payloads of the used blocks, each long enough. -/
structure Holds (live : Live) (bs : List Block) : Prop where
  sound : ∀ p n, live p = some n → ∃ b ∈ bs, b.free = false ∧ p = b.addr + 32 ∧ n + 32 ≤ b.size
  complete : ∀ b ∈ bs, b.free = false → (live (b.addr + 32)).isSome

theorem Holds.zero (h : Holds live bs) : live 0 = none := by
  cases hn : live 0 with
  | none => rfl
  | some n =>
    obtain ⟨b, -, -, he, -⟩ := h.sound 0 n hn
    omega

/-- A pointer is handed out for a free block. -/
theorem Holds.take (h : Holds live (pre ++ c :: post)) (hc : c.free = true) (hs : need ≤ c.size)
    (hn : n + 32 ≤ need) :
    Holds (Function.update live (c.addr + 32) (some n))
      (pre ++ taken need slack c :: (remainder need slack c ++ post)) := by
  refine ⟨?_, ?_⟩
  · intro p k hk
    rw [Function.update_apply] at hk
    split at hk
    · next hp =>
      cases hk
      refine ⟨taken need slack c, by simp, taken_free _ _ _, by rw [taken_addr, hp], ?_⟩
      exact Nat.le_trans hn (taken_size _ hs)
    · obtain ⟨b, hb, hf, he, hl⟩ := h.sound p k hk
      refine ⟨b, ?_, hf, he, hl⟩
      rw [mem_carve_used hf]
      rcases List.mem_append.1 hb with hb | hb
      · exact .inl hb
      · rcases List.mem_cons.1 hb with rfl | hb
        · rw [hc] at hf
          cases hf
        · exact .inr (.inr hb)
  · intro b hb hf
    rw [mem_carve_used hf] at hb
    rw [Function.update_apply]
    split
    · rfl
    · next hne =>
      rcases hb with hb | rfl | hb
      · exact h.complete b (by simp [hb]) hf
      · rw [taken_addr] at hne
        exact (hne rfl).elim
      · exact h.complete b (by simp [hb]) hf

/-- A pointer is given back. -/
theorem Holds.release (h : Holds live (pre ++ c :: post))
    (hpos : ∀ b ∈ pre ++ c :: post, 0 < b.size)
    (ht : Tiles lo (pre ++ c :: post) hi) :
    Holds (Function.update live (c.addr + 32) none) (BlockTiling.release pre c post) := by
  have hnd := ht.ordered
  rw [List.pairwise_append, List.pairwise_cons] at hnd
  have hother : ∀ b, b ∈ pre ∨ b ∈ post → b.addr ≠ c.addr := by
    intro b hb
    have hcs := hpos c (by simp)
    have hbs := hpos b (by rcases hb with hb | hb <;> simp [hb])
    rcases hb with hb | hb
    · have := hnd.2.2 b hb c (by simp)
      omega
    · have := hnd.2.1.1 b hb
      omega
  refine ⟨?_, ?_⟩
  · intro p k hk
    rw [Function.update_apply] at hk
    split at hk
    · cases hk
    · next hne =>
      obtain ⟨b, hb, hf, he, hl⟩ := h.sound p k hk
      refine ⟨b, ?_, hf, he, hl⟩
      rw [mem_release_used hf]
      rcases List.mem_append.1 hb with hb | hb
      · exact .inl hb
      · rcases List.mem_cons.1 hb with rfl | hb
        · exact (hne he).elim
        · exact .inr hb
  · intro b hb hf
    rw [mem_release_used hf] at hb
    have hne := hother b hb
    rw [Function.update_of_ne (by omega)]
    exact h.complete b (by rcases hb with hb | hb <;> simp [hb]) hf

/-- A request has been served: a block that was free is now used, and nothing that belongs to
the callers has changed. -/
structure Granted (L : Layout) (s : MemoryState) (bs : List Block) (n p : Nat) (s' : MemoryState)
    (bs' : List Block) : Prop where
  rep : HeapRep L s' bs'
  client : ∀ x, ClientByte L bs x → s'.mem x = s.mem x
  fresh : ∃ b ∈ bs', ∃ c ∈ bs, b.free = false ∧ p = b.addr + 32 ∧ n + 32 ≤ b.size ∧
    c.free = true ∧ c.addr = b.addr ∧ b.size ≤ c.size
  kept : ∀ b ∈ bs, b.free = false → b ∈ bs'
  holds : ∀ live, Holds live bs → Holds (Function.update live p (some n)) bs'
  other : s' = { s with mem := s'.mem }

theorem taken_size_le (hs : need ≤ c.size) : (taken need slack c).size ≤ c.size := by
  unfold taken
  split
  · exact Nat.le_refl _
  · exact hs

/-- `kmalloc` returns: it refuses a request with nothing changed, or it grants it. -/
def Answers (L : Layout) (s : MemoryState) (bs : List Block) (n : Nat) : Prop :=
  kmalloc L s n = some (0, s) ∨
    ∃ p s' bs', kmalloc L s n = some (p, s') ∧ p ≠ 0 ∧ Granted L s bs n p s' bs'

theorem kmalloc_answers (h : HeapRep L s bs) (hn : n ≤ 4294967248) : Answers L s bs n := by
  rcases Nat.eq_zero_or_pos n with rfl | hpos
  · exact .inl rfl
  rcases kmalloc_spec h hpos hn with ⟨-, he⟩ | ⟨pre, c, post, s', hf, he, hrep, hcl, ho⟩
  · exact .inl he
  · have hfp := footprint_eq hn
    obtain ⟨rfl, -, hc, hs⟩ := hf
    refine .inr ⟨c.addr + 32, s', _, he, by omega, hrep, hcl, ?_, ?_, ?_, ho⟩
    · refine ⟨taken (footprint n) 48 c, by simp, c, by simp, taken_free _ _ _, ?_, ?_, hc, ?_, ?_⟩
      · rw [taken_addr]
      · have := taken_size 48 hs
        omega
      · rw [taken_addr]
      · exact taken_size_le hs
    · intro b hb hbf
      rw [mem_carve_used hbf]
      rcases List.mem_append.1 hb with hb | hb
      · exact .inl hb
      · rcases List.mem_cons.1 hb with rfl | hb
        · rw [hc] at hbf
          cases hbf
        · exact .inr (.inr hb)
    · intro live hl
      exact hl.take hc hs (by omega)

theorem Granted.payload_client (g : Granted L s bs n p s' bs') (hl : p ≤ x) (hu : x < p + n) :
    ClientByte L bs' x := by
  obtain ⟨b, hb, c, -, hf, hp, hs, -⟩ := g.fresh
  exact .inr (.inr ⟨b, hb, hf, by omega, by omega⟩)

theorem Granted.payload_bounds (g : Granted L s bs n p s' bs') :
    L.gHeap + 32 ≤ p ∧ p + n ≤ L.heapEnd ∧ p + n ≤ 0x00800000 := by
  obtain ⟨b, hb, c, -, hf, hp, hs, -⟩ := g.fresh
  have := g.rep.bounds hb
  omega

/-- The new payload does not meet the bytes of the callers. -/
theorem Granted.client_outside (g : Granted L s bs n p s' bs') (h : HeapRep L s bs)
    (hx : ClientByte L bs x) : x < p ∨ p + n ≤ x := by
  obtain ⟨b, hb, c, hc, hf, hp, hs, hcf, he, hle⟩ := g.fresh
  have := h.client_off_free hx hc hcf
  omega

/-- Stores into the new payload keep everything else. -/
theorem Granted.fill (g : Granted L s bs n p s' bs') (h : HeapRep L s bs)
    (hm : ∀ x, x < p ∨ p + n ≤ x → m x = s'.mem x) :
    Granted L s bs n p { s' with mem := m } bs' := by
  have hrep : HeapRep L { s' with mem := m } bs' := by
    apply g.rep.of_sameOn
    rintro x ⟨d, hd, hl, hu⟩
    apply hm
    obtain ⟨b, hb, c, -, hf, hp, hs, -⟩ := g.fresh
    have hcl : ∀ y, p ≤ y → y < p + n → y < d.addr ∨ d.addr + 32 ≤ y := fun y hy hy' =>
      g.rep.client_off_header (g.payload_client hy hy') hd
    by_contra hne
    have := hcl x (by omega) (by omega)
    omega
  refine ⟨hrep, ?_, g.fresh, g.kept, g.holds, ?_⟩
  · intro x hx
    exact (hm x (g.client_outside h hx)).trans (g.client x hx)
  · have ho := g.other
    rw [ho]

/-- The overflow test of `kcalloc` is exact. -/
theorem kcalloc_overflow_iff (count size : Nat) :
    (count ≠ 0 ∧ 4294967295 / count < size) ↔ 4294967296 ≤ count * size := by
  rcases Nat.eq_zero_or_pos count with rfl | hc
  · simp
  · rw [Nat.div_lt_iff_lt_mul hc, Nat.mul_comm size]
    constructor
    · rintro ⟨-, h⟩
      omega
    · intro h
      exact ⟨by omega, by omega⟩

theorem kcalloc_of_overflow (L : Layout) (s : MemoryState) (h : 4294967296 ≤ count * size) :
    kcalloc L s count size = some (0, s) := by
  rw [kcalloc, if_pos ((kcalloc_overflow_iff count size).2 h)]

theorem kcalloc_of_lt (L : Layout) (s : MemoryState) (h : count * size < 4294967296) :
    kcalloc L s count size = (kmalloc L s (count * size)).map fun r =>
      if r.1 = 0 then (0, r.2)
      else (r.1, { r.2 with mem := memset r.2.mem r.1 0 (count * size) }) := by
  have hno : ¬ (count ≠ 0 ∧ 4294967295 / count < size) := by
    rw [kcalloc_overflow_iff]
    omega
  rw [kcalloc, if_neg hno]
  simp only [wrap_of_lt h]

theorem kcalloc_cases (h : HeapRep L s bs) (hn : count * size < 4294967296)
    (ha : Answers L s bs (count * size)) :
    kcalloc L s count size = some (0, s) ∨
      ∃ p s' bs', kcalloc L s count size = some (p, s') ∧ p ≠ 0 ∧
        Granted L s bs (count * size) p s' bs' ∧ ∀ k, k < count * size → s'.mem (p + k) = 0 := by
  rw [kcalloc_of_lt L s hn]
  rcases ha with he | ⟨p, s', bs', he, hp, g⟩
  · rw [he]
    exact .inl rfl
  · have hb := g.payload_bounds
    have hset := memset_apply s'.mem p 0 (n := count * size) (by omega)
    rw [he]
    simp only [Option.map_some, if_neg hp]
    refine .inr ⟨p, _, bs', rfl, hp, g.fill h ?_, ?_⟩
    · intro x hx
      rw [hset, if_neg (by omega)]
    · intro k hk
      exact (hset _).trans (if_pos (by omega))

/-- A block of the list, with the blocks on either side of it. -/
theorem HeapRep.split (h : HeapRep L s bs) (hb : b ∈ bs) :
    ∃ pre post, bs = pre ++ b :: post ∧ HeapRep L s (pre ++ b :: post) := by
  obtain ⟨pre, post, rfl⟩ := List.append_of_mem hb
  exact ⟨pre, post, rfl, h⟩

/-- How much the block of a pointer can hold. -/
def payloadCapacity (s : MemoryState) (p : Nat) : Nat := blockSize s.mem (payloadBlock p) - 32

theorem HeapRep.header_of_mem (h : HeapRep L s bs) (hb : b ∈ bs) :
    blockMagic s.mem b.addr = blockMagicWord ∧ blockSize s.mem b.addr = b.size := by
  obtain ⟨pre, post, -, h'⟩ := h.split hb
  exact ⟨h'.chained.header.magic, h'.chained.header.size⟩

theorem HeapRep.capacity_eq (h : HeapRep L s bs) (hb : b ∈ bs) :
    payloadCapacity s (b.addr + 32) = b.size - 32 := by
  have := h.bounds hb
  rw [payloadCapacity, payloadBlock_eq (by omega), (h.header_of_mem hb).2]

/-- A pointer has been given back. -/
structure Released (L : Layout) (s : MemoryState) (bs : List Block) (p : Nat) (s' : MemoryState)
    (bs' : List Block) : Prop where
  rep : HeapRep L s' bs'
  client : ∀ x, ClientByte L bs x → s'.mem x = s.mem x
  holds : ∀ live, Holds live bs → Holds (Function.update live p none) bs'
  other : s' = { s with mem := s'.mem }

theorem kfree_cases (h : HeapRep L s bs) (hb : b ∈ bs) :
    ∃ bs', Released L s bs (b.addr + 32) (kfree s (b.addr + 32)) bs' := by
  obtain ⟨pre, post, rfl, -⟩ := h.split hb
  obtain ⟨hrep, -, ho⟩ := kfree_spec h
  refine ⟨_, hrep, fun x hx => h.kfree_client hx, ?_, ho⟩
  intro live hl
  refine hl.release ?_ h.arena.tiles
  intro c hc
  have := h.bounds hc
  omega

/-- The move of `krealloc`: the old payload is copied into the new one and then given back. -/
theorem Granted.move (g : Granted L s bs n p s₁ bs₁) (h : HeapRep L s bs) (hb : b ∈ bs)
    (hf : b.free = false) (hlt : b.size - 32 < n) :
    ∃ s₂ bs', Granted L s bs n p s₂ bs₁ ∧ Released L s₂ bs₁ (b.addr + 32)
      (kfree { s₁ with mem := memcpy s₁.mem p (b.addr + 32) (b.size - 32) } (b.addr + 32)) bs' ∧
      ∀ k, k < b.size - 32 →
        (kfree { s₁ with mem := memcpy s₁.mem p (b.addr + 32) (b.size - 32) }
          (b.addr + 32)).mem (p + k) = s.mem (b.addr + 32 + k) := by
  have hbb := h.bounds hb
  have hpb := g.payload_bounds
  have hclient : ∀ k, k < b.size - 32 → ClientByte L bs (b.addr + 32 + k) := fun k hk =>
    .inr (.inr ⟨b, hb, hf, by omega, by omega⟩)
  -- the old payload and the new one are apart, so the forward copy is exact
  have hapart : p + (b.size - 32) ≤ b.addr + 32 ∨ b.addr + 32 + (b.size - 32) ≤ p := by
    have h₁ := g.client_outside h (hclient 0 (by omega))
    have h₂ := g.client_outside h (hclient (b.size - 32 - 1) (by omega))
    omega
  have hcopy := memcpy_apply s₁.mem p (b.addr + 32) (n := b.size - 32)
    (by omega) (by omega) (by omega)
  have g₁ := g.fill h (m := memcpy s₁.mem p (b.addr + 32) (b.size - 32)) (by
    intro x hx
    rw [hcopy, if_neg (by omega)])
  obtain ⟨bs', r⟩ := kfree_cases g₁.rep (g₁.kept b hb hf)
  refine ⟨_, bs', g₁, r, ?_⟩
  intro k hk
  have hxb : ClientByte L bs₁ (p + k) := g.payload_client (by omega) (by omega)
  rw [r.client _ hxb]
  simp only
  rw [hcopy, if_pos (by omega), Nat.add_sub_cancel_left, g.client _ (hclient k hk)]

/-- `krealloc` of a live pointer: it stays, it is refused, or it is copied to a new place. -/
theorem krealloc_cases (h : HeapRep L s bs) (hb : b ∈ bs) (hf : b.free = false) (hn : 0 < n)
    (ha : Answers L s bs n) :
    (n ≤ b.size - 32 ∧ krealloc L s (b.addr + 32) n = some (b.addr + 32, s)) ∨
    krealloc L s (b.addr + 32) n = some (0, s) ∨
    ∃ p s₁ bs₁ s' bs', krealloc L s (b.addr + 32) n = some (p, s') ∧ p ≠ 0 ∧ p ≠ b.addr + 32 ∧
      b.size - 32 < n ∧ Granted L s bs n p s₁ bs₁ ∧ Released L s₁ bs₁ (b.addr + 32) s' bs' ∧
      ∀ k, k < b.size - 32 → s'.mem (p + k) = s.mem (b.addr + 32 + k) := by
  have hbb := h.bounds hb
  obtain ⟨hmagic, hsize⟩ := h.header_of_mem hb
  have hold : sub b.size headerSize = b.size - 32 := by
    rw [headerSize_eq, sub_of_le (by omega) (by omega)]
  have hp₀ : b.addr + 32 ≠ 0 := by omega
  have hn₀ : n ≠ 0 := by omega
  have hmg : ¬ blockMagic s.mem b.addr ≠ blockMagicWord := not_not.2 hmagic
  have hblock : payloadBlock (b.addr + 32) = b.addr := payloadBlock_eq (by omega)
  simp only [krealloc, if_neg hp₀, if_neg hn₀, hblock, if_neg hmg, hsize, hold]
  by_cases hle : n ≤ b.size - 32
  · exact .inl ⟨hle, if_pos hle⟩
  · rw [if_neg hle]
    rcases ha with he | ⟨p, s₁, bs₁, he, hp, g⟩
    · rw [he]
      exact .inr (.inl rfl)
    · refine .inr (.inr ?_)
      rw [he]
      simp only [Option.map_some, if_neg hp]
      obtain ⟨s₂, bs', g₂, r, hbytes⟩ := g.move h hb hf (by omega)
      have hpb : p ≠ b.addr + 32 := by
        intro heq
        have := g.client_outside h (.inr (.inr ⟨b, hb, hf, Nat.le_refl _, by omega⟩))
        omega
      exact ⟨p, s₂, bs₁, _, bs', rfl, hp, hpb, by omega, g₂, r, hbytes⟩

end KernelCustom
