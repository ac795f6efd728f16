import KernelCustom.AtaDrive

namespace KernelCustom
open Word32 ByteStore Traces
set_option autoImplicit true

variable {τ : DriveTraits} {σ : Statuses} {m : Mem}

/-- Some code adds accesses to the log that lead any drive with `P` to one with `Q`. -/
def Drives (τ : DriveTraits) (io io' : DriveIo) (P Q : AttachedDrive → Prop) : Prop :=
  ∃ ext, io'.log = io.log ++ ext ∧ Leads (AtaStep τ) P ext Q

theorem Drives.refl (io : DriveIo) (h : ∀ s, P s → Q s) : Drives τ io io P Q :=
  ⟨[], (List.append_nil _).symm, .nil h⟩

theorem Drives.trans (h : Drives τ io io' P R) (h' : Drives τ io' io'' R Q) :
    Drives τ io io'' P Q := by
  obtain ⟨ext, hlog, hleads⟩ := h
  obtain ⟨ext', hlog', hleads'⟩ := h'
  refine ⟨ext ++ ext', ?_, hleads.append hleads'⟩
  rw [hlog', hlog, List.append_assoc]

theorem Drives.weaken (h : Drives τ io io' P Q) (hP : ∀ s, P' s → P s) (hQ : ∀ s, Q s → Q' s) :
    Drives τ io io' P' Q' := by
  obtain ⟨ext, hlog, hleads⟩ := h
  exact ⟨ext, hlog, hleads.weaken hP hQ⟩

theorem Drives.of_false (h : Drives τ io io' P Q) (hP : ∀ s, ¬ P' s) : Drives τ io io' P' Q' := by
  obtain ⟨ext, hlog, -⟩ := h
  exact ⟨ext, hlog, fun s t hs _ => (hP s hs).elim⟩

/-- It is enough to look at one start state at a time. -/
theorem Drives.of_states (hlog : ∃ ext, io'.log = io.log ++ ext)
    (h : ∀ s, P s → Drives τ io io' (· = s) Q) : Drives τ io io' P Q := by
  obtain ⟨ext, hext⟩ := hlog
  refine ⟨ext, hext, fun s t hs hrun => ?_⟩
  obtain ⟨ext', hext', hleads⟩ := h s hs
  rw [List.append_cancel_left (hext'.symm.trans hext)] at hleads
  exact hleads s t rfl hrun

/-- What does not depend on the drive may be carried along. -/
theorem Drives.frame (h : Drives τ io io' P Q) (c : Prop) :
    Drives τ io io' (fun s => c ∧ P s) fun t => c ∧ Q t := by
  obtain ⟨ext, hlog, hleads⟩ := h
  exact ⟨ext, hlog, fun s t hs hrun => ⟨hs.1, hleads s t hs.2 hrun⟩⟩

theorem Drives.and (h : Drives τ io io' P Q) (h' : Drives τ io io' P Q') :
    Drives τ io io' P fun t => Q t ∧ Q' t := by
  obtain ⟨ext, hlog, hleads⟩ := h
  obtain ⟨ext', hlog', hleads'⟩ := h'
  rw [List.append_cancel_left (hlog'.symm.trans hlog)] at hleads'
  exact ⟨ext, hlog, fun s t hs hrun => ⟨hleads s t hs hrun, hleads' s t hs hrun⟩⟩

theorem Drives.run (h : Drives τ io io' P Q) (hs : P s)
    (hrun : ∀ ext, io'.log = io.log ++ ext → Run (AtaStep τ) s ext t) : Q t := by
  obtain ⟨ext, hlog, hleads⟩ := h
  exact hleads s t hs (hrun ext hlog)

theorem drives_outb (io : DriveIo) (h : ∀ s t, P s → AtaStep τ s (.outb port val) t → Q t) :
    Drives τ io (io.outb port val) P Q :=
  ⟨[.outb port val], rfl, .cons h (.nil fun _ hs => hs)⟩

theorem drives_insw (io : DriveIo) (h : ∀ s t, P s → AtaStep τ s (.insw port addr count) t → Q t) :
    Drives τ io (io.insw port addr count) P Q :=
  ⟨[.insw port addr count], rfl, .cons h (.nil fun _ hs => hs)⟩

/-- A poll of a drive that is not astray. -/
theorem drives_inb (τ : DriveTraits) (σ : Statuses) (io : DriveIo)
    (hport : port = ataRegStatus ∨ port = ataRegAltstatus)
    (hP : ∀ s, P s → s.phase ≠ .astray)
    (h : ∀ s t, P s → t.mem = s.mem → StatusAnswer τ s.phase (σ io.reads) t.phase → Q t) :
    Drives τ io (io.inb σ port).2 P Q := by
  refine ⟨[.inb port (σ io.reads)], rfl, .cons (fun s t hs hstep => ?_) (.nil fun _ hs => hs)⟩
  obtain ⟨-, hmem, hanswer⟩ := hstep.poll_inv hport (hP s hs)
  exact h s t hs hmem hanswer

/-- The drive owes `left` sectors from `sector` on, and until it gives them it is preparing the next
one, has it ready or has given up. -/
structure Owes (sector left : Nat) (m : Mem) (s : AttachedDrive) : Prop where
  mem : s.mem = m
  phase : if left = 0 then s.phase = .idle else s.phase = .failed ∨ s.phase = .ready sector left ∨
    ∃ polls, s.phase = .preparing sector left polls

theorem Owes.not_astray (h : Owes sector left m s) : s.phase ≠ .astray := by
  have hphase := h.phase
  split at hphase
  · rw [hphase]
    exact DrivePhase.noConfusion
  · rcases hphase with h | h | ⟨polls, h⟩ <;> rw [h] <;> exact DrivePhase.noConfusion

/-- A poll after a command. Only a sector that is ready shows itself with `DRQ`. -/
theorem Owes.poll (h : Owes sector left m s) (hm : t.mem = s.mem)
    (ha : StatusAnswer τ s.phase v t.phase) :
    Owes sector left m t ∧ (givesData v → 0 < left ∧ t.phase = .ready sector left) := by
  have hmem := hm.trans h.mem
  have hphase := h.phase
  split at hphase
  · next hleft =>
    rw [hphase] at ha
    generalize hp : t.phase = p at ha
    cases ha with
    | idle hv =>
      refine ⟨⟨hmem, by rw [if_pos hleft, hp]⟩, fun hgive => ?_⟩
      have hdrq := hgive.2.1
      rw [hv.drq] at hdrq
      cases hdrq
  · next hleft =>
    have hpos : 0 < left := Nat.pos_of_ne_zero hleft
    generalize hp : t.phase = p at ha
    rcases hphase with h | h | ⟨polls, h⟩
    · rw [h] at ha
      cases ha with
      | failed hv =>
        refine ⟨⟨hmem, by rw [if_neg hleft]; exact .inl hp⟩, fun hgive => ?_⟩
        have herr := hgive.2.2
        rw [hv.err] at herr
        cases herr
    · rw [h] at ha
      cases ha with
      | ready hv => exact ⟨⟨hmem, by rw [if_neg hleft]; exact .inr (.inl hp)⟩, fun _ => ⟨hpos, rfl⟩⟩
    · rw [h] at ha
      cases ha with
      | preparing hk hv =>
        refine ⟨⟨hmem, by rw [if_neg hleft]; exact .inr (.inr ⟨_, hp⟩)⟩, fun hgive => ?_⟩
        have hbsy := hgive.1
        rw [τ.busy _ hv] at hbsy
        cases hbsy
      | prepared hv =>
        exact ⟨⟨hmem, by rw [if_neg hleft]; exact .inr (.inl hp)⟩, fun _ => ⟨hpos, rfl⟩⟩
      | fault hf hv =>
        refine ⟨⟨hmem, by rw [if_neg hleft]; exact .inl hp⟩, fun hgive => ?_⟩
        have herr := hgive.2.2
        rw [hv.err] at herr
        cases herr

/-- The poll loop leaves a positive time-out and no error only when the sector is ready. -/
theorem pollSector_drives (τ : DriveTraits) (σ : Statuses) (sector left : Nat) (m : Mem)
    (timeout : Nat) (status : UInt8) (io : DriveIo) :
    Drives τ io (pollSector σ timeout status io).io (Owes sector left m) fun t =>
      Owes sector left m t ∧ (0 < (pollSector σ timeout status io).timeout →
        isSet (pollSector σ timeout status io).status ataSrErr = false →
        0 < left ∧ t.phase = .ready sector left) := by
  induction timeout generalizing status io with
  | zero =>
    refine .refl io fun s hs => ⟨hs, fun hpos => ?_⟩
    have hneg : (0 : Int) < -1 := hpos
    exact absurd hneg (by decide)
  | succ timeout ih =>
    have hpoll := drives_inb τ σ io (.inr rfl) (fun s hs => Owes.not_astray hs)
      fun s t (hs : Owes sector left m s) hm ha => hs.poll hm ha
    rw [pollSector]
    split
    · next herr =>
      refine hpoll.weaken (fun _ hs => hs) fun t ht => ⟨ht.1, fun _ hok => ?_⟩
      rw [herr] at hok
      cases hok
    · split
      · next herr hready =>
        refine hpoll.weaken (fun _ hs => hs) fun t ht => ⟨ht.1, fun _ hok => ?_⟩
        exact ht.2 ⟨hready.1, hready.2, hok⟩
      · exact hpoll.trans ((ih _ _).weaken (fun _ hs => hs.1) fun _ ht => ht)

/-- The command has just come, or a sector has just been taken. -/
structure Fresh (sector left : Nat) (m : Mem) (s : AttachedDrive) : Prop where
  mem : s.mem = m
  phase : s.phase = if left = 0 then .idle else .preparing sector left 0

theorem Fresh.owes (h : Fresh sector left m s) : Owes sector left m s := by
  refine ⟨h.mem, ?_⟩
  have hphase := h.phase
  split at hphase
  · next hleft => rwa [if_pos hleft]
  · next hleft =>
    rw [if_neg hleft]
    exact .inr (.inr ⟨0, hphase⟩)

/-- The transfer of a sector that is ready. -/
theorem Owes.transfer (h : Owes sector left m s) (hready : 0 < left ∧ s.phase = .ready sector left)
    (hstep : AtaStep τ s (.insw ataRegData addr 256) t) :
    Fresh (sector + 1) (left - 1) (receive τ.disk sector [sectorTransfer addr] m) t := by
  obtain ⟨hpos, hphase⟩ := hready
  rw [hstep.transfer_inv hphase, ← h.mem]
  refine ⟨rfl, ?_⟩
  by_cases hlast : left = 1
  · rw [if_pos hlast, if_pos (by omega)]
  · rw [if_neg hlast, if_neg (by omega)]

/-- The attempts at a sector take it, or leave the drive with what it owes. -/
theorem readSector_drives (τ : DriveTraits) (σ : Statuses) (sector left : Nat) (m : Mem)
    (addr attempts : Nat) (status : UInt8) (io : DriveIo) :
    Drives τ io (readSector σ addr attempts status io).2 (Owes sector left m) fun t =>
      if (readSector σ addr attempts status io).1 then 0 < left ∧
        Fresh (sector + 1) (left - 1) (receive τ.disk sector [sectorTransfer addr] m) t
      else Owes sector left m t := by
  induction attempts generalizing status io with
  | zero => exact .refl io fun s hs => hs
  | succ attempts ih =>
    have hpoll := pollSector_drives τ σ sector left m 1000000 status io
    rw [readSector]
    split
    · next hgo =>
      refine hpoll.trans (drives_insw _ fun s t hs hstep => ?_)
      have hready := hs.2 hgo.1 hgo.2
      rw [if_pos rfl]
      exact ⟨hready.1, hs.1.transfer hready hstep⟩
    · exact hpoll.trans ((ih _ _).weaken (fun _ hs => hs.1) fun _ ht => ht)

theorem receive_cons_eq (disk : Disk) (sector : Nat) (x : Transfer) (ts : List Transfer) (m : Mem) :
    receive disk sector (x :: ts) m =
      receive disk (sector + 1) ts (receive disk sector [x] m) := rfl

/-- The sectors that are taken are those that the drive gives, in order. -/
theorem readSectors_drives (buffer n i : Nat) (io : DriveIo) :
    Drives τ io (readSectors σ buffer n i io).2 (Owes sector left m) fun t =>
      ∃ k, k ≤ left ∧ k ≤ n ∧ ((readSectors σ buffer n i io).1 = .returned ↔ k = n) ∧
        Owes (sector + k) (left - k) (receive τ.disk sector
          ((List.range' i k).map fun j => sectorTransfer (wrap (buffer + 512 * j))) m) t := by
  induction n generalizing i io sector left m with
  | zero => exact .refl io fun s hs => ⟨0, Nat.zero_le _, Nat.le_refl 0, iff_of_true rfl rfl, hs⟩
  | succ n ih =>
    have haddr : wrap (buffer + wrap (i * 512)) = wrap (buffer + 512 * i) := by
      rw [wrap_add_wrap, Nat.mul_comm]
    have hsector := readSector_drives τ σ sector left m
      (wrap (buffer + wrap (i * 512))) 3 0 io
    rw [readSectors]
    split
    · next hdone =>
      simp only [if_pos hdone] at hsector
      rw [haddr] at hsector ⊢
      by_cases hpos : 0 < left
      · refine (hsector.weaken (fun _ hs => hs) fun t ht => ht.2.owes).trans
          ((ih (i + 1) _).weaken (fun _ hs => hs) ?_)
        rintro t ⟨k, hk, hn, hret, howes⟩
        refine ⟨k + 1, by omega, by omega, by rw [hret]; omega, ?_⟩
        rw [List.range'_succ, List.map_cons, receive_cons_eq, Nat.add_comm k, ← Nat.add_assoc,
          ← Nat.sub_sub]
        exact howes
      · have hrest := @ih m sector left (i + 1) (readSector σ (wrap (buffer + 512 * i)) 3 0 io).2
        exact hsector.trans (hrest.of_false fun s hs => hpos hs.1)
    · next hfail =>
      simp only [if_neg hfail] at hsector
      refine hsector.weaken (fun _ hs => hs) fun t ht => ?_
      refine ⟨0, Nat.zero_le _, Nat.zero_le _, iff_of_false ?_ (by omega), ht⟩
      intro hret
      cases hret

/-- The drive waits for a command, or is about to. -/
structure Attentive (m : Mem) (s : AttachedDrive) : Prop where
  mem : s.mem = m
  phase : s.phase = .idle ∨ ∃ polls, s.phase = .settling polls

theorem Attentive.not_astray (h : Attentive m s) : s.phase ≠ .astray := by
  rcases h.phase with h | ⟨polls, h⟩ <;> rw [h] <;> exact DrivePhase.noConfusion

/-- Without `BSY` the drive waits for a command. -/
theorem Attentive.poll (h : Attentive m s) (hm : t.mem = s.mem)
    (ha : StatusAnswer τ s.phase v t.phase) :
    Attentive m t ∧ (isSet v ataSrBsy = false → t.phase = .idle) := by
  have hmem := hm.trans h.mem
  generalize hp : t.phase = p at ha
  rcases h.phase with h | ⟨polls, h⟩
  · rw [h] at ha
    cases ha with
    | idle hv => exact ⟨⟨hmem, .inl hp⟩, fun _ => rfl⟩
  · rw [h] at ha
    cases ha with
    | settling hk hv =>
      refine ⟨⟨hmem, .inr ⟨_, hp⟩⟩, fun hbsy => ?_⟩
      rw [τ.busy _ hv] at hbsy
      cases hbsy
    | settled hv => exact ⟨⟨hmem, .inl hp⟩, fun _ => rfl⟩

theorem waitIdle_drives (τ : DriveTraits) (σ : Statuses) (m : Mem) (fuel : Nat) (io : DriveIo) :
    Drives τ io (waitIdle σ fuel io).2 (Attentive m) fun t =>
      Attentive m t ∧ ((waitIdle σ fuel io).1 = true → t.phase = .idle) := by
  induction fuel generalizing io with
  | zero => exact .refl io fun s hs => ⟨hs, Bool.noConfusion⟩
  | succ fuel ih =>
    have hpoll := drives_inb τ σ io (.inl rfl) (fun s hs => Attentive.not_astray hs)
      fun s t (hs : Attentive m s) hm ha => hs.poll hm ha
    rw [waitIdle]
    split
    · exact hpoll.trans ((ih _).weaken (fun _ hs => hs.1) fun _ ht => ht)
    · next hidle =>
      refine hpoll.weaken (fun _ hs => hs) fun t ht => ⟨ht.1, fun _ => ht.2 ?_⟩
      simpa using hidle

/-- The number of sectors that a drive takes a count for: its register has eight bits. -/
def sectorsAsked (sectorCount : Nat) : Nat :=
  if sectorCount % 256 = 0 then 256 else sectorCount % 256

/-- The write of a register, whatever the registers hold. -/
theorem drives_register (τ : DriveTraits) (m : Mem) (io : DriveIo) (r : Nat → UInt8) (port : Nat)
    (hport : port ∈ taskFile) (val : UInt8) : Drives τ io (io.outb port val) (· = ⟨r, .idle, m⟩)
      (· = ⟨Function.update r port val, .idle, m⟩) := by
  refine drives_outb io fun s t hs hstep => ?_
  have hidle : s.phase.TakesCommands := by
    rw [hs]
    exact .inl rfl
  rw [hstep.register_inv hport hidle, hs]

/-- The registers after the five writes. -/
def commandRegs (lba sectorCount : Nat) (r : Nat → UInt8) : Nat → UInt8 :=
  let r := Function.update r ataRegDevice (UInt8.ofNat (0xE0 ||| ((lba >>> 24) &&& 0x0F)))
  let r := Function.update r ataRegSeccount (UInt8.ofNat sectorCount)
  let r := Function.update r ataRegLbaLow (UInt8.ofNat lba)
  let r := Function.update r ataRegLbaMid (UInt8.ofNat (lba >>> 8))
  Function.update r ataRegLbaHigh (UInt8.ofNat (lba >>> 16))

theorem commandRegs_values (lba sectorCount : Nat) (r : Nat → UInt8) :
    commandRegs lba sectorCount r ataRegDevice =
      UInt8.ofNat (0xE0 ||| ((lba >>> 24) &&& 0x0F)) ∧
    commandRegs lba sectorCount r ataRegSeccount = UInt8.ofNat sectorCount ∧
    commandRegs lba sectorCount r ataRegLbaLow = UInt8.ofNat lba ∧
    commandRegs lba sectorCount r ataRegLbaMid = UInt8.ofNat (lba >>> 8) ∧
    commandRegs lba sectorCount r ataRegLbaHigh = UInt8.ofNat (lba >>> 16) := by
  simp [commandRegs, ataRegDevice, ataRegSeccount, ataRegLbaLow, ataRegLbaMid, ataRegLbaHigh]

theorem commandRegs_addressed (lba sectorCount : Nat) (r : Nat → UInt8) (m : Mem) :
    AttachedDrive.Addressed ⟨commandRegs lba sectorCount r, .idle, m⟩ := by
  have hall : ∀ k : Fin 16, UInt8.ofNat (0xE0 ||| k.val) &&& 0x50 = 0x40 := by decide
  have hlow : (lba >>> 24) &&& 0x0F = lba >>> 24 % 16 := Nat.and_two_pow_sub_one_eq_mod _ 4
  rw [AttachedDrive.Addressed]
  dsimp only
  rw [(commandRegs_values lba sectorCount r).1, hlow]
  exact hall ⟨_, Nat.mod_lt _ (by decide)⟩

theorem commandRegs_lba (lba sectorCount : Nat) (r : Nat → UInt8) (m : Mem) :
    AttachedDrive.lba ⟨commandRegs lba sectorCount r, .idle, m⟩ = lba % 268435456 := by
  obtain ⟨hdevice, -, hlow, hmid, hhigh⟩ := commandRegs_values lba sectorCount r
  rw [AttachedDrive.lba]
  dsimp only
  rw [hdevice, hlow, hmid, hhigh, device_low_bits 0xE0 (.inl rfl)]
  simp only [Nat.shiftRight_eq_div_pow, UInt8.toNat_ofNat']
  omega

theorem commandRegs_count (lba sectorCount : Nat) (r : Nat → UInt8) (m : Mem) :
    AttachedDrive.count ⟨commandRegs lba sectorCount r, .idle, m⟩ = sectorsAsked sectorCount := by
  have hzero : UInt8.ofNat sectorCount = 0 ↔ sectorCount % 256 = 0 := by
    rw [← UInt8.toNat_inj, UInt8.toNat_ofNat']
    rfl
  rw [AttachedDrive.count, sectorsAsked]
  simp only [(commandRegs_values lba sectorCount r).2.1, hzero, UInt8.toNat_ofNat']

theorem sectorsAsked_pos (n : Nat) : 0 < sectorsAsked n := by
  rw [sectorsAsked]
  split
  · decide
  · next h => exact Nat.pos_of_ne_zero h

/-- The command asks for the sectors from the low 28 bits of the LBA on. -/
theorem sendReadCommand_drives (lba n : Nat) (io : DriveIo) :
    Drives τ io (sendReadCommand 0 lba n io) (fun s => s.phase = .idle ∧ s.mem = m)
      (Fresh (lba % 268435456) (sectorsAsked n) m) := by
  obtain ⟨ext, hlog, -⟩ := (sendReadCommand_does 0 lba n io).extends_log
  refine .of_states ⟨ext, hlog⟩ fun s hs => ?_
  obtain ⟨r, phase, m'⟩ := s
  obtain ⟨rfl, rfl⟩ : phase = .idle ∧ m' = m := hs
  have hregs := ((((drives_register τ m' io r ataRegDevice (by decide)
    (UInt8.ofNat (0xE0 ||| ((lba >>> 24) &&& 0x0F)))).trans
    (drives_register τ m' _ _ ataRegSeccount (by decide) (UInt8.ofNat n))).trans
    (drives_register τ m' _ _ ataRegLbaLow (by decide) (UInt8.ofNat lba))).trans
    (drives_register τ m' _ _ ataRegLbaMid (by decide) (UInt8.ofNat (lba >>> 8)))).trans
    (drives_register τ m' _ _ ataRegLbaHigh (by decide) (UInt8.ofNat (lba >>> 16)))
  refine hregs.trans (drives_outb _ fun s t hs hstep => ?_)
  have hs' : s = ⟨commandRegs lba n r, .idle, m'⟩ := hs
  subst hs'
  rw [hstep.command_inv (.inl rfl) (commandRegs_addressed lba n r m'), commandRegs_lba,
    commandRegs_count]
  exact ⟨rfl, (if_neg (Nat.ne_of_gt (sectorsAsked_pos n))).symm⟩

/-- Where a call leaves the drive: not astray, and after a call that returns with what it owes from
the sectors of the call on. -/
theorem diskReadEx_drives (τ : DriveTraits) (σ : Statuses) (m : Mem) (fuel lba buffer n : Nat)
    (io : DriveIo) :
    Drives τ io (diskReadEx σ fuel 0 lba buffer n io).2 (Attentive m) fun t =>
      ((diskReadEx σ fuel 0 lba buffer n io).1 = .waiting ∧ Attentive m t) ∨
      (diskReadEx σ fuel 0 lba buffer n io).1 ≠ .waiting ∧ ∃ k, k ≤ sectorsAsked n ∧ k ≤ n ∧
        ((diskReadEx σ fuel 0 lba buffer n io).1 = .returned ↔ k = n) ∧
        Owes (lba % 268435456 + k) (sectorsAsked n - k) (receive τ.disk (lba % 268435456)
          ((List.range' 0 k).map fun j => sectorTransfer (wrap (buffer + 512 * j))) m) t := by
  have hwait := waitIdle_drives τ σ m fuel io
  rw [diskReadEx]
  split
  · next hidle =>
    have hsent := hwait.trans
      ((sendReadCommand_drives lba n _).weaken (fun s hs => ⟨hs.2 hidle, hs.1.mem⟩) fun _ hs => hs)
    refine (hsent.weaken (fun _ hs => hs) fun _ hs => hs.owes).trans
      ((readSectors_drives buffer n 0 _).weaken (fun _ hs => hs) fun t ht => ?_)
    exact .inr ⟨readSectors_ne_waiting _ _ _ _ _, ht⟩
  · exact hwait.weaken (fun _ hs => hs) fun t ht => .inl ⟨rfl, ht.1⟩

theorem receive_range (disk : Disk) (sector : Nat) (m : Mem) (h : buffer + 512 * n ≤ 4294967296)
    (x : Nat) : receive disk sector
      ((List.range' 0 n).map fun j => sectorTransfer (wrap (buffer + 512 * j))) m x =
      if buffer ≤ x ∧ x < buffer + 512 * n then disk (sector * 512 + (x - buffer)) else m x := by
  have hmem := @receive_sectors buffer 0 n disk sector m (by omega) x
  rwa [Nat.zero_add] at hmem

/-- The end of a call, as its caller sees it. -/
theorem diskReadEx_gives (τ : DriveTraits) (σ : Statuses) (m : Mem) (fuel lba : Nat) (io : DriveIo)
    (hbuf : buffer + 512 * n ≤ 4294967296) :
    Drives τ io (diskReadEx σ fuel 0 lba buffer n io).2 (Attentive m) fun t =>
      t.phase ≠ .astray ∧ ((diskReadEx σ fuel 0 lba buffer n io).1 = .returned → 0 < n →
        n ≤ 256 ∧ t.phase = .idle ∧ t.mem = diskRead τ.disk lba m buffer n) := by
  refine (diskReadEx_drives τ σ m fuel lba buffer n io).weaken (fun _ hs => hs) fun t ht => ?_
  rcases ht with ⟨hwait, hatt⟩ | ⟨-, k, hk, hn, hret, howes⟩
  · refine ⟨hatt.not_astray, fun hdone => ?_⟩
    cases hwait.symm.trans hdone
  · refine ⟨howes.not_astray, fun hdone hpos => ?_⟩
    have hkn := hret.1 hdone
    subst hkn
    have hle : k ≤ 256 ∧ sectorsAsked k = k := by
      rw [sectorsAsked] at hk ⊢
      split at hk <;> split <;> omega
    have hphase := howes.phase
    rw [hle.2, Nat.sub_self, if_pos rfl] at hphase
    refine ⟨hle.1, hphase, howes.mem.trans ?_⟩
    funext x
    rw [receive_range _ _ _ hbuf, diskRead]

theorem Drives.run_from_start (h : Drives τ .start io P Q) (hs : P s)
    (hrun : Run (AtaStep τ) s io.log t) : Q t := by
  refine h.run hs fun ext hlog => ?_
  rw [DriveIo.start, List.nil_append] at hlog
  exact hlog ▸ hrun

/-- `disk_read_ex` against any drive, however slow, noisy or broken: it never uses the drive against
the protocol, and when it returns it has the sectors it was asked for, and none is left over. -/
theorem disk_read_from_drive (fuel lba buffer n : Nat) (hs : Attentive s.mem s)
    (hbuf : buffer + 512 * n ≤ 4294967296)
    (hrun : Run (AtaStep τ) s (diskReadEx σ fuel 0 lba buffer n .start).2.log t) :
    t.phase ≠ .astray ∧ ((diskReadEx σ fuel 0 lba buffer n .start).1 = .returned → 0 < n →
      n ≤ 256 ∧ t.phase = .idle ∧ t.mem = diskRead τ.disk lba s.mem buffer n) :=
  (diskReadEx_gives τ σ s.mem fuel lba .start hbuf).run_from_start hs hrun

/-- A drive of zeros that is never busy. -/
def quickDrive : DriveTraits where
  disk := zeroed
  busyReset _ := False
  busySector _ := False
  busyStatus v := v = 0x80
  busy v hv := by
    rw [hv]
    decide
  mayFail := False

/-- The statuses of a drive that has data after some polls. -/
def readyAfter (polls : Nat) : Statuses := fun i => if i < polls then 0x50 else 0x58

/-- The accesses when sector 0 is read to 4096. -/
def oneSectorLog : List PortAccess :=
  [.inb ataRegStatus 0x50, .outb ataRegDevice 0xE0, .outb ataRegSeccount 1, .outb ataRegLbaLow 0,
    .outb ataRegLbaMid 0, .outb ataRegLbaHigh 0, .outb ataRegCommand 0x20,
    .inb ataRegAltstatus 0x58, .insw ataRegData 4096 256]

theorem idleStatus_drdy : IdleStatus 0x50 := ⟨by decide, by decide, by decide, by decide⟩

theorem quickDrive_read (h : s.phase = .idle) : ∃ t, Run (AtaStep quickDrive) s oneSectorLog t := by
  obtain ⟨regs, phase, mem⟩ := s
  obtain rfl : phase = .idle := h
  have haddressed := commandRegs_addressed 0 1 regs mem
  exact ⟨_, .cons (.poll (.inl rfl) (.idle idleStatus_drdy)) <|
    .cons (.register (.inl rfl) (by decide)) <| .cons (.register (.inl rfl) (by decide)) <|
    .cons (.register (.inl rfl) (by decide)) <| .cons (.register (.inl rfl) (by decide)) <|
    .cons (.register (.inl rfl) (by decide)) <| .cons (.command (.inl rfl) haddressed) <|
    .cons (.poll (.inr rfl) (.prepared ⟨by decide, by decide, by decide⟩)) <|
    .cons (.transfer rfl) .nil⟩

theorem disk_read_from_drive_sector : ∃ t,
    Run (AtaStep quickDrive) ⟨fun _ => 0, .idle, zeroed⟩
      (diskReadEx (readyAfter 1) 1 0 0 4096 1 .start).2.log t ∧
    t.phase ≠ .astray ∧ t.mem = diskRead zeroed 0 zeroed 4096 1 := by
  have hlog : (diskReadEx (readyAfter 1) 1 0 0 4096 1 .start).2.log = oneSectorLog := by
    decide +kernel
  have hret : (diskReadEx (readyAfter 1) 1 0 0 4096 1 .start).1 = .returned := by decide +kernel
  obtain ⟨t, hrun⟩ := quickDrive_read (s := ⟨fun _ => 0, .idle, zeroed⟩) rfl
  rw [← hlog] at hrun
  have hread := disk_read_from_drive 1 0 4096 1 ⟨rfl, .inl rfl⟩ (by decide) hrun
  exact ⟨t, hrun, hread.1, (hread.2 hret (by decide)).2.2⟩

end KernelCustom
