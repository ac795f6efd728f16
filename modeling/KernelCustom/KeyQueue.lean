import KernelCustom.KeyWait

namespace KernelCustom
open RingBuffer
set_option autoImplicit true

/-- Where `keyboard_buffer_pop` is between its reads and writes, with what it has read. -/
inductive PopPc where
  | start
  /-- One side of the comparison has been read. -/
  | head (h : Nat)
  | tail (t : Nat)
  | compare (h t : Nat)
  /-- Before `kbd_buffer[tail]`. -/
  | index
  | slot (t : Nat)
  /-- Before the right side of `tail = (tail + 1) % KBD_BUF_SIZE`. -/
  | next (c : UInt8)
  | store (c : UInt8) (t : Nat)
  | ret (c : UInt8)

/-- One read, write or branch of `keyboard_buffer_pop`. C does not say which side of the comparison
is read first. -/
inductive PopStep : KeyBuffer → PopPc → KeyBuffer → PopPc → Prop
  | headFirst : PopStep b .start b (.head b.head)
  | tailFirst : PopStep b .start b (.tail b.tail)
  | tailSecond : PopStep b (.head h) b (.compare h b.tail)
  | headSecond : PopStep b (.tail t) b (.compare b.head t)
  | empty (heq : h = t) : PopStep b (.compare h t) b (.ret 0)
  | nonempty (hne : h ≠ t) : PopStep b (.compare h t) b .index
  | readTail : PopStep b .index b (.slot b.tail)
  | readSlot : PopStep b (.slot t) b (.next (b.slot t))
  | readTailAgain : PopStep b (.next c) b (.store c b.tail)
  | writeTail : PopStep b (.store c t) { b with tail := (t + 1) % 128 } (.ret c)

/-- The bytes that a running `SYS_READ` has stored. -/
def Reader.stored : Reader → List UInt8
  | .sysRead stored _ => stored
  | _ => []

/-- The key buffer between the interrupt handler and the system call that runs, if any. The lists
say what the buffer accepted, what left it and what programs got from the calls that ended.
`sawEmpty` says whether the buffer was empty at some point of the present call of
`keyboard_buffer_pop`. -/
structure KeySystem where
  buffer : KeyBuffer
  call : Option (Reader × PopPc)
  accepted : List UInt8
  popped : List UInt8
  delivered : List UInt8
  sawEmpty : Bool

def KeySystem.initial : KeySystem := ⟨⟨0, 0, fun _ => 0⟩, none, [], [], [], false⟩

def KeySystem.isEmpty (s : KeySystem) : Bool := s.buffer.contents = []

/-- Notes whether the buffer is empty now. -/
def KeySystem.observe (s : KeySystem) : KeySystem := { s with sawEmpty := s.sawEmpty || s.isEmpty }

/-- The interrupt handler adds a key, in one step. -/
def KeySystem.push (s : KeySystem) (c : UInt8) : KeySystem :=
  { s with
    buffer := keyboardBufferPush s.buffer c
    accepted := if (s.buffer.head + 1) % 128 ≠ s.buffer.tail then s.accepted ++ [c]
      else s.accepted }

/-- A loop calls `keyboard_buffer_pop`. -/
def KeySystem.callPop (s : KeySystem) (r : Reader) : KeySystem :=
  { s with call := some (r, .start), sawEmpty := s.isEmpty }

/-- A system call goes on as its loop says, or it ends with some bytes for the program. -/
def KeySystem.continue (s : KeySystem) (bytes : List UInt8) : Mode → KeySystem
  | .poll r => s.callPop r
  | _ => { s with call := none, delivered := s.delivered ++ bytes }

inductive KeySystem.Step : KeySystem → KeySystem → Prop
  | push (hc : c ≠ 0) : Step s (s.push c).observe
  | sysReadRaw (hcall : s.call = none) : Step s (s.callPop .sysReadRaw)
  | sysRead (hcall : s.call = none) (maxLen : UInt32) : Step s (s.continue [] (readNext [] maxLen))
  | pop (hcall : s.call = some (r, pc)) (hstep : PopStep s.buffer pc b pc')
      (hpc : ∀ c t, pc ≠ .store c t) : Step s { s with buffer := b, call := some (r, pc') }.observe
  -- the write of `tail` takes the byte out of the buffer
  | take (hcall : s.call = some (r, .store c t)) (hstep : PopStep s.buffer (.store c t) b pc') :
      Step s { s with
        buffer := b, call := some (r, pc'), popped := s.popped ++ [c] }.observe
  | retry (hcall : s.call = some (r, .ret 0)) : Step s (s.callPop r)
  | receive (hcall : s.call = some (r, .ret c)) (hc : c ≠ 0) :
      Step s (s.continue (r.stored ++ [c]) (r.received c))

/-- What holds at each place of `keyboard_buffer_pop`, however far the head has moved on since it
was read. -/
def PopPc.Sound (b : KeyBuffer) (sawEmpty : Bool) : PopPc → Prop
  | start => True
  | head h => (h = b.tail → sawEmpty = true) ∧ (h ≠ b.tail → b.contents ≠ [])
  | tail t => t = b.tail
  | compare h t => t = b.tail ∧ (h = t → sawEmpty = true) ∧ (h ≠ t → b.contents ≠ [])
  | index => b.contents ≠ []
  | slot t => t = b.tail ∧ b.contents ≠ []
  | next c => b.contents.head? = some c
  | store c t => t = b.tail ∧ b.contents.head? = some c
  | ret c => c = 0 → sawEmpty = true

/-- A push in between does no harm. -/
theorem PopPc.Sound.mono {b b' : KeyBuffer} {pc : PopPc} (h : pc.Sound b e)
    (ht : b'.tail = b.tail) (hc : b.contents <+: b'.contents) (he : e = true → e' = true) :
    pc.Sound b' e' := by
  have hne : b.contents ≠ [] → b'.contents ≠ [] := by
    intro hne hnil
    rw [hnil] at hc
    exact hne (List.prefix_nil.1 hc)
  have hhead : ∀ c, b.contents.head? = some c → b'.contents.head? = some c := by
    intro c hb
    obtain ⟨rest, hrest⟩ := hc
    rw [← hrest, List.head?_append, hb]
    rfl
  cases pc with
  | start => trivial
  | head h' =>
    rw [PopPc.Sound, ht]
    exact ⟨fun heq => he (h.1 heq), fun hn => hne (h.2 hn)⟩
  | tail t => exact h.trans ht.symm
  | compare h' t => exact ⟨h.1.trans ht.symm, fun heq => he (h.2.1 heq), fun hn => hne (h.2.2 hn)⟩
  | index => exact hne h
  | slot t => exact ⟨h.1.trans ht.symm, hne h.2⟩
  | next c => exact hhead c h
  | store c t => exact ⟨h.1.trans ht.symm, hhead c h.2⟩
  | ret c => exact fun hz => he (h hz)

/-- Up to the write of `tail` a call of `keyboard_buffer_pop` leaves the buffer alone. -/
theorem PopStep.buffer_eq (h : PopStep b pc b' pc') (hpc : ∀ c t, pc ≠ .store c t) : b' = b := by
  cases h with
  | writeTail => exact absurd rfl (hpc _ _)
  | _ => rfl

theorem PopStep.sound {b : KeyBuffer} (h : PopStep b pc b' pc') (hb : KeyBuffer.Filled b)
    (hpc : pc.Sound b e) (hsaw : b.contents = [] → e = true) : pc'.Sound b' e := by
  have hnil := hb.valid.contents_eq_nil_iff
  cases h with
  | headFirst => exact ⟨fun heq => hsaw (hnil.2 heq), fun hne hc => hne (hnil.1 hc)⟩
  | tailFirst => rfl
  | tailSecond => exact ⟨rfl, hpc.1, hpc.2⟩
  | headSecond =>
    refine ⟨hpc, fun heq => hsaw (hnil.2 (heq.trans hpc)), fun hne hc => hne ?_⟩
    exact (hnil.1 hc).trans hpc.symm
  | empty heq => exact fun _ => hpc.2.1 heq
  | nonempty hne => exact hpc.2.2 hne
  | readTail => exact ⟨rfl, hpc⟩
  | readSlot =>
    obtain ⟨rfl, hne⟩ := hpc
    rw [PopPc.Sound, hb.valid.contents_cons hne]
    rfl
  | readTailAgain => exact ⟨rfl, hpc⟩
  | writeTail =>
    intro hz
    exact absurd (hz ▸ List.mem_of_mem_head? hpc.2) hb.nonzero

/-- The write of `tail` takes the oldest byte. -/
theorem PopStep.take {b : KeyBuffer} (h : PopStep b (.store c t) b' pc')
    (hb : KeyBuffer.Filled b) (hpc : (PopPc.store c t).Sound b e) :
    KeyBuffer.Filled b' ∧ b.contents = c :: b'.contents ∧ pc' = .ret c := by
  cases h with
  | writeTail =>
    obtain ⟨rfl, hhead⟩ := hpc
    have hne : b.contents ≠ [] := by
      intro hnil
      rw [hnil] at hhead
      cases hhead
    have hcons := hb.valid.contents_cons hne
    have hc : b.slot b.tail = c := by
      rw [hcons] at hhead
      exact Option.some.inj hhead
    rw [hc] at hcons
    refine ⟨⟨⟨hb.valid.1, Nat.mod_lt _ (by decide)⟩, fun hm => hb.nonzero ?_⟩, hcons, rfl⟩
    rw [hcons]
    exact List.mem_cons_of_mem _ hm

/-- The bytes that have left the buffer for a system call that still runs. -/
def inCall : Option (Reader × PopPc) → List UInt8
  | none => []
  | some (r, .ret c) => if c = 0 then r.stored else r.stored ++ [c]
  | some (r, _) => r.stored

theorem PopStep.inCall_eq (h : PopStep b pc b' pc') (hpc : ∀ c t, pc ≠ .store c t) (r : Reader) :
    inCall (some (r, pc')) = inCall (some (r, pc)) := by
  cases h with
  | writeTail => exact absurd rfl (hpc _ _)
  | _ => rfl

theorem readNext_stored (h : readNext stored maxLen = .poll r) : r.stored = stored := by
  rw [readNext] at h
  split at h <;> cases h
  rfl

/-- A reader that goes on has stored the byte. -/
theorem Reader.received_stored {r r' : Reader} (h : r.received c = .poll r') :
    r'.stored = r.stored ++ [c] := by
  cases r with
  | shellLoop => cases h
  | sysReadRaw => cases h
  | sysRead stored maxLen =>
    rw [Reader.received] at h
    split at h
    · cases h
    · exact readNext_stored h

/-- The buffer is a queue: what it accepted has left it in order or is still there, and what left it
went to programs in order. -/
structure KeySystem.Sound (s : KeySystem) : Prop where
  filled : KeyBuffer.Filled s.buffer
  fifo : s.accepted = s.popped ++ s.buffer.contents
  handed : s.popped = s.delivered ++ inCall s.call
  pc : ∀ r pc, s.call = some (r, pc) → pc.Sound s.buffer s.sawEmpty

theorem KeySystem.Sound.observe {s : KeySystem} (h : s.Sound) : s.observe.Sound := by
  refine ⟨h.filled, h.fifo, h.handed, fun r pc hcall => ?_⟩
  refine (h.pc r pc hcall).mono rfl (List.prefix_rfl) fun he => ?_
  rw [KeySystem.observe, he]
  rfl

theorem KeySystem.Sound.callPop {s : KeySystem} (h : s.Sound) (r : Reader)
    (hr : inCall s.call = r.stored) : (s.callPop r).Sound := by
  refine ⟨h.filled, h.fifo, ?_, ?_⟩
  · change s.popped = s.delivered ++ r.stored
    rw [h.handed, hr]
  · rintro r' pc hcall
    cases hcall
    trivial

theorem KeySystem.Sound.continue {s : KeySystem} (h : s.Sound) (hb : inCall s.call = bytes)
    (hpoll : ∀ r, mode = .poll r → r.stored = bytes) : (s.continue bytes mode).Sound := by
  cases mode with
  | poll r => exact h.callPop r (hb.trans (hpoll r rfl).symm)
  | _ =>
    refine ⟨h.filled, h.fifo, ?_, fun r pc hcall => by cases hcall⟩
    change s.popped = (s.delivered ++ bytes) ++ []
    rw [h.handed, hb, List.append_nil]

theorem KeySystem.Sound.push {s : KeySystem} (h : s.Sound) (hc : c ≠ 0) : (s.push c).Sound := by
  have hfilled := h.filled.push hc
  by_cases hroom : (s.buffer.head + 1) % 128 ≠ s.buffer.tail
  · have hcontents := h.filled.valid.contents_push_of_room hroom c
    have htail : (s.buffer.push c).tail = s.buffer.tail := by
      rw [Ring.push, if_pos hroom]
    refine ⟨hfilled, ?_, h.handed, fun r pc hcall => ?_⟩
    · simp only [KeySystem.push, keyboardBufferPush, if_pos hroom]
      rw [hcontents, h.fifo, List.append_assoc]
    · exact (h.pc r pc hcall).mono htail ⟨[c], hcontents.symm⟩ id
  · have hsame : s.push c = s := by
      simp only [KeySystem.push, keyboardBufferPush, Ring.push_of_full hroom, if_neg hroom]
    rw [hsame]
    exact h

theorem KeySystem.Step.sound (hstep : KeySystem.Step s s') (h : s.Sound) : s'.Sound := by
  cases hstep with
  | push hc => exact (h.push hc).observe
  | sysReadRaw hcall => exact h.callPop _ (by rw [hcall]; rfl)
  | sysRead hcall maxLen =>
    exact h.continue (by rw [hcall]; rfl) fun r hr => readNext_stored hr
  | @pop r pc _ pc' b hcall hstep hpc =>
    have hb := hstep.buffer_eq hpc
    subst hb
    have hpc₀ : pc.Sound s.buffer (s.sawEmpty || s.isEmpty) :=
      (h.pc r pc hcall).mono rfl List.prefix_rfl fun he => by rw [he]; rfl
    have hsaw : s.buffer.contents = [] → (s.sawEmpty || s.isEmpty) = true := by
      intro hnil
      rw [KeySystem.isEmpty, decide_eq_true hnil, Bool.or_true]
    refine ⟨h.filled, h.fifo, ?_, ?_⟩
    · change s.popped = s.delivered ++ inCall (some (r, pc'))
      rw [hstep.inCall_eq hpc, ← hcall]
      exact h.handed
    · rintro r' pc'' hcall'
      cases hcall'
      exact hstep.sound h.filled hpc₀ hsaw
  | @take r c t _ b pc' hcall hstep =>
    have hpc := h.pc r _ hcall
    obtain ⟨hfilled, hcons, rfl⟩ := hstep.take h.filled hpc
    have hc : c ≠ 0 := by
      rintro rfl
      exact h.filled.nonzero (hcons ▸ List.mem_cons_self ..)
    refine KeySystem.Sound.observe ⟨hfilled, ?_, ?_, ?_⟩
    · rw [h.fifo, hcons, List.append_assoc]
      rfl
    · have hhanded := h.handed
      rw [hcall] at hhanded
      change s.popped ++ [c] = s.delivered ++ if c = 0 then r.stored else r.stored ++ [c]
      rw [if_neg hc, hhanded, List.append_assoc]
      rfl
    · rintro r' pc'' hcall'
      cases hcall'
      exact fun hz => absurd hz hc
  | retry hcall => exact h.callPop _ (by rw [hcall]; rfl)
  | receive hcall hc =>
    refine h.continue ?_ fun r hr => Reader.received_stored hr
    rw [hcall]
    exact if_neg hc

theorem KeySystem.initial_sound : KeySystem.initial.Sound :=
  ⟨⟨⟨by decide, by decide⟩, by decide⟩, by decide, rfl, fun r pc hcall => by cases hcall⟩

abbrev KeySystem.Reachable (s : KeySystem) : Prop :=
  Relation.ReflTransGen KeySystem.Step KeySystem.initial s

theorem KeySystem.Reachable.sound (h : KeySystem.Reachable s) : s.Sound := by
  induction h with
  | refl => exact KeySystem.initial_sound
  | tail _ hstep ih => exact hstep.sound ih

/-- The key buffer is a bounded queue under every interleaving with the interrupt handler. -/
theorem key_buffer_fifo (h : KeySystem.Reachable s) :
    (s.buffer.head < 128 ∧ s.buffer.tail < 128) ∧
      (∀ c, (s.push c).accepted =
        if s.buffer.contents.length < 127 then s.accepted ++ [c] else s.accepted) ∧
      s.accepted = s.popped ++ s.buffer.contents ∧ s.popped = s.delivered ++ inCall s.call ∧
      ∀ r, s.call = some (r, .ret 0) → s.sawEmpty = true := by
  have hs := h.sound
  exact ⟨hs.filled.valid, fun c => if_congr hs.filled.valid.room_iff rfl rfl, hs.fifo, hs.handed,
    fun r hcall => hs.pc r _ hcall rfl⟩

/-- A second key comes while `SYS_READ_RAW` takes the first one. -/
theorem key_buffer_fifo_in_interrupted_read : ∃ s, KeySystem.Reachable s ∧
    s.accepted = [104, 105] ∧ s.popped = s.delivered ++ inCall s.call ∧ s.delivered = [104] := by
  have h₁ : KeySystem.Reachable (KeySystem.initial.push 104).observe := .single (.push (by decide))
  have h₂ := h₁.tail (.sysReadRaw rfl)
  have h₃ := h₂.tail (.pop rfl .headFirst fun _ _ h => by cases h)
  have h₄ := h₃.tail (.push (by decide : (105 : UInt8) ≠ 0))
  have h₅ := h₄.tail (.pop rfl .tailSecond fun _ _ h => by cases h)
  have h₆ := h₅.tail (.pop rfl (.nonempty (by decide)) fun _ _ h => by cases h)
  have h₇ := h₆.tail (.pop rfl .readTail fun _ _ h => by cases h)
  have h₈ := h₇.tail (.pop rfl .readSlot fun _ _ h => by cases h)
  have h₉ := h₈.tail (.pop rfl .readTailAgain fun _ _ h => by cases h)
  have h₁₀ := h₉.tail (.take rfl .writeTail)
  have h₁₁ := h₁₀.tail (.receive rfl (by decide))
  exact ⟨_, h₁₁, by decide, (key_buffer_fifo h₁₁).2.2.2.1, by decide⟩

end KernelCustom
