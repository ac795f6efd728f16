import KernelCustom.AtaInit
import KernelCustom.DriveRuns

namespace KernelCustom
open Word32 ByteStore Traces
set_option autoImplicit true

variable {τ : DriveTraits} {σ : Statuses} {m : Mem}

/-- A drive that works, and is done with a reset and with each sector in time. -/
structure DriveTraits.Prompt (τ : DriveTraits) : Prop where
  reset : ∀ k, τ.busyReset k → k < 99999
  sector : ∀ k, τ.busySector k → k < 2999998
  quiet : ∀ v, τ.busyStatus v → isSet v ataSrErr = false
  works : ¬ τ.mayFail

/-- The next sector is there, or will be after fewer than `polls` more polls. -/
def InTime (τ : DriveTraits) (polls sector left : Nat) (s : AttachedDrive) : Prop :=
  s.phase = .ready sector left ∨ ∃ p, s.phase = .preparing sector left p ∧
    ∀ k, τ.busySector k → k + 2 < p + polls

theorem InTime.not_astray (h : InTime τ polls sector left s) : s.phase ≠ .astray := by
  rcases h with h | ⟨p, h, -⟩ <;> rw [h] <;> exact DrivePhase.noConfusion

/-- The poll loop has seen that the sector is ready. -/
def SectorPoll.Seen (p : SectorPoll) : Prop := 0 < p.timeout ∧ isSet p.status ataSrErr = false

/-- A poll of a drive that will be ready. -/
theorem InTime.poll (hτ : τ.Prompt) (h : InTime τ polls sector left s)
    (ha : StatusAnswer τ s.phase v t.phase) :
    (givesData v ∧ t.phase = .ready sector left) ∨ (isSet v ataSrBsy = true ∧
      isSet v ataSrErr = false ∧ 2 < polls ∧ InTime τ (polls - 1) sector left t) := by
  generalize hp : t.phase = q at ha
  rcases h with h | ⟨p, h, hk⟩
  · rw [h] at ha
    cases ha with
    | ready hv => exact .inl ⟨hv, rfl⟩
  · rw [h] at ha
    cases ha with
    | preparing hbusy hv =>
      have hmore := hk p hbusy
      refine .inr ⟨τ.busy _ hv, hτ.quiet _ hv, by omega, .inr ⟨p + 1, hp, fun k hk' => ?_⟩⟩
      have hbound := hk k hk'
      omega
    | prepared hv => exact .inl ⟨hv, rfl⟩
    | fault hf _ => exact (hτ.works hf).elim

/-- The poll loop sees the sector, or uses up its polls; there are more to come then. -/
theorem pollSector_inTime (hτ : τ.Prompt) (σ : Statuses) (sector left timeout polls : Nat)
    (status : UInt8) (io : DriveIo) :
    Drives τ io (pollSector σ timeout status io).io (InTime τ polls sector left) fun t =>
      (pollSector σ timeout status io).Seen ∨
        (2 ≤ timeout → timeout < polls) ∧ InTime τ (polls - timeout) sector left t := by
  induction timeout generalizing polls status io with
  | zero => exact .refl io fun s hs => .inr ⟨fun h => absurd h (by decide), hs⟩
  | succ timeout ih =>
    have hpoll := drives_inb τ σ io (.inr rfl) (fun s hs => InTime.not_astray hs)
      fun s t (hs : InTime τ polls sector left s) _ ha => hs.poll hτ ha
    rw [pollSector]
    split
    · next herr =>
      refine hpoll.weaken (fun _ hs => hs) fun t ht => ?_
      rw [DriveIo.inb_value] at herr
      rcases ht with ⟨hgive, -⟩ | ⟨-, hok, -⟩
      · cases herr.symm.trans hgive.2.2
      · cases herr.symm.trans hok
    · split
      · next herr hseen =>
        refine hpoll.weaken (fun _ hs => hs) fun t ht => ?_
        rcases ht with ⟨hgive, hready⟩ | ⟨hbusy, -⟩
        · by_cases hlast : timeout = 0
          · exact .inr ⟨fun h => absurd h (by omega), .inl hready⟩
          · exact .inl ⟨by dsimp only; omega, hgive.2.2⟩
        · cases hseen.1.symm.trans hbusy
      · next herr hseen =>
        refine (hpoll.weaken (fun _ hs => hs) fun t ht => ?_).trans
          (((ih (polls - 1) _ _).frame (2 < polls)).weaken (fun _ hs => hs) fun t ht => ?_)
        · exact ht.elim (fun h => (hseen ⟨h.1.1, h.1.2.1⟩).elim) fun h => h.2.2
        · obtain ⟨hpos, hseen' | ⟨hmore, hin⟩⟩ := ht
          · exact .inl hseen'
          · rw [Nat.sub_sub, Nat.add_comm] at hin
            exact .inr ⟨fun _ => by omega, hin⟩

/-- The three attempts at a sector are enough. -/
theorem readSector_inTime (hτ : τ.Prompt) (addr attempts : Nat) (status : UInt8) (io : DriveIo) :
    Drives τ io (readSector σ addr attempts status io).2
      (fun s => 0 < attempts ∧ InTime τ (1000000 * attempts) sector left s)
      fun _ => (readSector σ addr attempts status io).1 = true := by
  induction attempts generalizing status io with
  | zero => exact .refl io fun s hs => absurd hs.1 (by decide)
  | succ attempts ih =>
    have hpoll := pollSector_inTime hτ σ sector left 1000000
      (1000000 * (attempts + 1)) status io
    rw [readSector]
    split
    · exact (hpoll.weaken (fun s hs => hs.2) fun t ht => trivial).trans
        (drives_insw (P := fun _ => True) _ fun _ _ _ _ => rfl)
    · next hno =>
      refine (hpoll.weaken (fun s hs => hs.2) fun t ht => ?_).trans (ih _ _)
      obtain ⟨hmore, hin⟩ := ht.resolve_left hno
      have hpolls := hmore (by decide)
      refine ⟨by omega, ?_⟩
      rwa [show 1000000 * (attempts + 1) - 1000000 = 1000000 * attempts by omega] at hin

/-- A drive that owes as many sectors as are read gives them all. -/
theorem readSectors_inTime (hτ : τ.Prompt) (buffer n i : Nat) (io : DriveIo) (h : n ≤ left) :
    Drives τ io (readSectors σ buffer n i io).2 (Fresh sector left m)
      fun _ => (readSectors σ buffer n i io).1 = .returned := by
  induction n generalizing i io sector left m with
  | zero => exact .refl io fun _ _ => rfl
  | succ n ih =>
    have hin : ∀ s, Fresh sector left m s → 0 < 3 ∧ InTime τ (1000000 * 3) sector left s := by
      refine fun s hs => ⟨by decide, .inr ⟨0, ?_, fun k hk => ?_⟩⟩
      · rw [hs.phase, if_neg (by omega)]
      · have hbound := hτ.sector k hk
        omega
    have hsector := ((readSector_drives τ σ sector left m
      (wrap (buffer + wrap (i * 512))) 3 0 io).weaken (fun _ hs => hs.owes)
        fun _ ht => ht).and ((readSector_inTime hτ _ 3 0 io).weaken hin fun _ ht => ht)
    rw [readSectors]
    split
    · next hdone =>
      simp only [if_pos hdone] at hsector
      exact (hsector.weaken (fun _ hs => hs) fun t ht => ht.1.2).trans (ih (i + 1) _ (by omega))
    · next hfail => exact hsector.weaken (fun _ hs => hs) fun t ht => (hfail ht.2).elim

/-- A poll of a drive that waits. -/
theorem drives_idle_poll (τ : DriveTraits) (σ : Statuses) (m : Mem) (io : DriveIo)
    (hport : port = ataRegStatus ∨ port = ataRegAltstatus) :
    Drives τ io (io.inb σ port).2 (fun s => s.phase = .idle ∧ s.mem = m) fun t =>
      IdleStatus (σ io.reads) ∧ t.phase = .idle ∧ t.mem = m := by
  refine drives_inb τ σ io hport (fun s hs => ?_) fun s t hs hm ha => ?_
  · rw [hs.1]
    exact DrivePhase.noConfusion
  · generalize hp : t.phase = q at ha
    rw [hs.1] at ha
    cases ha with
    | idle hv => exact ⟨hv, rfl, hm.trans hs.2⟩

theorem waitIdle_idle (τ : DriveTraits) (σ : Statuses) (m : Mem) (fuel : Nat) (io : DriveIo) :
    Drives τ io (waitIdle σ (fuel + 1) io).2 (fun s => s.phase = .idle ∧ s.mem = m) fun t =>
      (waitIdle σ (fuel + 1) io).1 = true ∧ t.phase = .idle ∧ t.mem = m := by
  have hpoll := drives_idle_poll τ σ m io (.inl (Eq.refl ataRegStatus))
  rw [waitIdle]
  split
  · next hbusy =>
    obtain ⟨ext, hlog, -⟩ := waitIdle_reads σ fuel (io.inb σ ataRegStatus).2
    refine hpoll.trans ⟨ext, hlog, fun s t hs _ => ?_⟩
    cases hbusy.symm.trans hs.1.bsy
  · exact hpoll.weaken (fun _ hs => hs) fun _ ht => ⟨rfl, ht.2⟩

/-- A call on a drive that waits, for as many sectors as its counter can hold. -/
theorem diskReadEx_inTime (hτ : τ.Prompt) (fuel lba buffer : Nat) (io : DriveIo) (hn : n ≤ 256) :
    Drives τ io (diskReadEx σ (fuel + 1) 0 lba buffer n io).2
      (fun s => s.phase = .idle ∧ s.mem = m)
      fun _ => (diskReadEx σ (fuel + 1) 0 lba buffer n io).1 = .returned := by
  have hwait := waitIdle_idle τ σ m fuel io
  have hasked : n ≤ sectorsAsked n := by
    rw [sectorsAsked]
    split <;> omega
  rw [diskReadEx]
  split
  · exact ((hwait.weaken (fun _ hs => hs) fun t ht => ht.2).trans
      (sendReadCommand_drives lba n _)).trans (readSectors_inTime hτ buffer n 0 _ hasked)
  · next hbusy => exact hwait.weaken (fun _ hs => hs) fun t ht => (hbusy ht.1).elim

/-- A prompt drive gives all the sectors of a call exactly when its counter can hold their number;
after a larger one the call waits for ever. -/
theorem disk_read_returns_iff (hτ : τ.Prompt) (fuel lba buffer n : Nat) (hs : s.phase = .idle)
    (hrun : Run (AtaStep τ) s (diskReadEx σ (fuel + 1) 0 lba buffer n .start).2.log t) :
    (diskReadEx σ (fuel + 1) 0 lba buffer n .start).1 = .returned ↔ n ≤ 256 := by
  constructor
  · intro hret
    have hcall := diskReadEx_drives τ σ s.mem (fuel + 1) lba buffer n .start
    rcases hcall.run_from_start ⟨rfl, .inl hs⟩ hrun with ⟨hwait, -⟩ | ⟨-, k, hk, -, hall, -⟩
    · cases hwait.symm.trans hret
    · rw [hall.1 hret, sectorsAsked] at hk
      split at hk <;> omega
  · exact fun hn => (diskReadEx_inTime hτ fuel lba buffer .start hn).run_from_start ⟨hs, rfl⟩ hrun

theorem quickDrive_prompt : quickDrive.Prompt where
  reset _ h := h.elim
  sector _ h := h.elim
  quiet v hv := by
    rw [hv]
    decide
  works := id

theorem disk_read_returns_sector : ∃ t,
    Run (AtaStep quickDrive) ⟨fun _ => 0, .idle, zeroed⟩
      (diskReadEx (readyAfter 1) 1 0 0 4096 1 .start).2.log t ∧
    ((diskReadEx (readyAfter 1) 1 0 0 4096 1 .start).1 = .returned ↔ 1 ≤ 256) := by
  have hlog : (diskReadEx (readyAfter 1) 1 0 0 4096 1 .start).2.log = oneSectorLog := by
    decide +kernel
  obtain ⟨t, hrun⟩ := quickDrive_read (s := ⟨fun _ => 0, .idle, zeroed⟩) rfl
  rw [← hlog] at hrun
  exact ⟨t, hrun, disk_read_returns_iff quickDrive_prompt 0 0 4096 1 rfl hrun⟩

/-! From `ata_init` on. -/

theorem resetController_drives (τ : DriveTraits) (m : Mem) (io : DriveIo) :
    Drives τ io (resetController io) (·.mem = m)
      fun t => t.mem = m ∧ t.phase = .settling 0 := by
  have hreset : Drives τ io (io.outb ataPrimaryCtrl 0x04) (·.mem = m)
      fun t => t.mem = m ∧ t.phase = .resetting := by
    refine drives_outb io fun s t hs hstep => ?_
    rw [hstep.reset_inv (by decide)]
    exact ⟨hs, rfl⟩
  refine hreset.trans (drives_outb _ fun s t hs hstep => ?_)
  rw [hstep.release_inv (by decide) hs.2]
  exact ⟨hs.1, rfl⟩

/-- The reset is over within the polls that the first loop of `ata_init` has left. -/
def Settles (τ : DriveTraits) (timeout : Nat) (m : Mem) (s : AttachedDrive) : Prop :=
  0 < timeout ∧ s.mem = m ∧
    (s.phase = .idle ∨ ∃ p, s.phase = .settling p ∧ ∀ k, τ.busyReset k → k + 1 < p + timeout)

theorem Settles.attentive (h : Settles τ timeout m s) : Attentive m s :=
  ⟨h.2.1, h.2.2.imp id fun ⟨p, hp, _⟩ => ⟨p, hp⟩⟩

theorem Settles.poll (h : Settles τ (timeout + 1) m s) (hm : t.mem = s.mem)
    (ha : StatusAnswer τ s.phase v t.phase) :
    (isSet v ataSrBsy = false ∧ t.phase = .idle ∧ t.mem = m) ∨
      isSet v ataSrBsy = true ∧ Settles τ timeout m t := by
  obtain ⟨-, hmem, hphase⟩ := h
  generalize hp : t.phase = q at ha
  rcases hphase with h | ⟨p, h, hk⟩
  · rw [h] at ha
    cases ha with
    | idle hv => exact .inl ⟨hv.bsy, rfl, hm.trans hmem⟩
  · rw [h] at ha
    cases ha with
    | settling hbusy hv =>
      have hmore := hk p hbusy
      refine .inr ⟨τ.busy _ hv, by omega, hm.trans hmem, .inr ⟨p + 1, hp, fun k hk' => ?_⟩⟩
      have hbound := hk k hk'
      omega
    | settled hv => exact .inl ⟨hv.bsy, rfl, hm.trans hmem⟩

theorem waitWhileBusy_settles (σ : Statuses) (timeout : Nat) (io : DriveIo) :
    Drives τ io (waitWhileBusy σ timeout io).2 (Settles τ timeout m) fun t =>
      (waitWhileBusy σ timeout io).1 ≠ 0 ∧ t.phase = .idle ∧ t.mem = m := by
  induction timeout generalizing io with
  | zero =>
    obtain ⟨ext, hlog⟩ : ∃ ext, (waitWhileBusy σ 0 io).2.log = io.log ++ ext := by
      rw [waitWhileBusy]
      split
      · exact ⟨_, rfl⟩
      · exact ⟨_, rfl⟩
    exact ⟨ext, hlog, fun s t hs _ => absurd hs.1 (by decide)⟩
  | succ timeout ih =>
    have hpoll := drives_inb τ σ io (.inl rfl)
      (fun s (hs : Settles τ (timeout + 1) m s) => hs.attentive.not_astray)
      fun s t hs hm ha => hs.poll hm ha
    rw [waitWhileBusy]
    split
    · next hbusy =>
      refine (hpoll.weaken (fun _ hs => hs) fun t ht => ?_).trans (ih _)
      refine ht.elim (fun h => ?_) fun h => h.2
      cases hbusy.symm.trans h.1
    · next hidle =>
      refine hpoll.weaken (fun _ hs => hs) fun t ht => ⟨Nat.succ_ne_zero timeout, ?_⟩
      exact ht.elim (fun h => h.2) fun h => (hidle h.1).elim

/-- The log of the wait for `DRDY` begins with a poll. -/
theorem pollReady_log (σ : Statuses) (poll : Nat) (io : DriveIo) :
    ∃ ext, (pollReady σ poll io).2.log = (io.inb σ ataRegStatus).2.log ++ ext := by
  have hone : ∃ ext, (io.inb σ ataRegStatus).2.log = (io.inb σ ataRegStatus).2.log ++ ext :=
    ⟨[], (List.append_nil _).symm⟩
  induction poll generalizing io with
  | zero =>
    rw [pollReady.eq_def]
    dsimp only
    repeat' split
    all_goals exact hone
  | succ poll ih =>
    obtain ⟨ext, hlog⟩ := ih (io.inb σ ataRegStatus).2 ⟨[], (List.append_nil _).symm⟩
    rw [pollReady.eq_def]
    dsimp only
    repeat' split
    · exact hone
    · exact hone
    · exact hone
    · rw [hlog, DriveIo.inb, List.append_assoc]
      exact ⟨_, rfl⟩

/-- A drive that waits has `DRDY` set, and is taken at once. -/
theorem pollReady_drives (τ : DriveTraits) (σ : Statuses) (m : Mem) (poll : Nat) (io : DriveIo) :
    Drives τ io (pollReady σ poll io).2 (fun s => s.phase = .idle ∧ s.mem = m) fun t =>
      (pollReady σ poll io).1 = .ok poll ∧ t.phase = .idle ∧ t.mem = m := by
  have hpoll := drives_idle_poll τ σ m io (.inl (Eq.refl ataRegStatus))
  by_cases hidle : IdleStatus (σ io.reads)
  · rw [pollReady_ready hidle.drdy hidle.err]
    exact hpoll.weaken (fun _ hs => hs) fun _ ht => ⟨rfl, ht.2⟩
  · obtain ⟨ext, hlog⟩ := pollReady_log σ poll io
    exact hpoll.trans ⟨ext, hlog, fun s t hs _ => (hidle hs.1).elim⟩

theorem selectDrive_drives (io : DriveIo) :
    Drives τ io (selectDrive σ io).2 (fun s => s.phase = .idle ∧ s.mem = m) fun t =>
      (selectDrive σ io).1 = .ok () ∧ t.phase = .idle ∧ t.mem = m := by
  have hselect : Drives τ io (io.outb ataRegDevice ataMaster)
      (fun s => s.phase = .idle ∧ s.mem = m) fun t => t.phase = .idle ∧ t.mem = m := by
    refine drives_outb io fun s t hs hstep => ?_
    rw [hstep.register_inv (by decide) (.inl hs.1)]
    exact hs
  have hpoll := hselect.trans (pollReady_drives τ σ m 100000 _)
  rw [selectDrive]
  split
  · next e he =>
    refine hpoll.weaken (fun _ hs => hs) fun t ht => ?_
    cases he.symm.trans ht.1
  · next poll hok =>
    split
    · next hzero =>
      refine hpoll.weaken (fun _ hs => hs) fun t ht => ?_
      rw [hzero] at hok
      cases hok.symm.trans ht.1
    · exact hpoll.weaken (fun _ hs => hs) fun t ht => ⟨rfl, ht.2⟩

/-- A prompt drive is found, whatever state it is in before. -/
theorem ataInit_drives (hτ : τ.Prompt) (σ : Statuses) (m : Mem) (io : DriveIo) :
    Drives τ io (ataInit σ io).2 (·.mem = m) fun t =>
      (ataInit σ io).1 = .ok () ∧ t.phase = .idle ∧ t.mem = m := by
  have hsettles : ∀ s, s.mem = m ∧ s.phase = .settling 0 → Settles τ 100000 m s := by
    refine fun s hs => ⟨by decide, hs.1, .inr ⟨0, hs.2, fun k hk => ?_⟩⟩
    have hbound := hτ.reset k hk
    omega
  have hbusy := (resetController_drives τ m io).trans
    ((waitWhileBusy_settles σ 100000 _).weaken hsettles fun _ ht => ht)
  rw [ataInit]
  split
  · next hzero => exact hbusy.weaken (fun _ hs => hs) fun t ht => (ht.1 hzero).elim
  · exact (hbusy.weaken (fun _ hs => hs) fun t ht => ht.2).trans (selectDrive_drives _)

/-- A call of `disk_read`. -/
structure SectorRead where
  lba : Nat
  buffer : Nat
  count : Nat

/-- A call that the registers and the memory have room for. -/
structure SectorRead.Fits (r : SectorRead) : Prop where
  pos : 0 < r.count
  count : r.count ≤ 256
  buffer : r.buffer + 512 * r.count ≤ 4294967296

/-- Calls of `disk_read`, one after the other. -/
def diskReads (σ : Statuses) (fuel : Nat) : List SectorRead → DriveIo → DiskEnd × DriveIo
  | [], io => (.returned, io)
  | r :: rs, io =>
    let q := diskReadEx σ fuel 0 r.lba r.buffer r.count io
    if q.1 = .returned then diskReads σ fuel rs q.2 else q

/-- What the kernel does with the drive: `ata_init`, and then calls of `disk_read`. Without a drive
it calls `panic`. -/
def kernelReads (σ : Statuses) (fuel : Nat) (rs : List SectorRead) (io : DriveIo) :
    DiskEnd × DriveIo :=
  let r := ataInit σ io
  match r.1 with
  | .error _ => (.hung, r.2)
  | .ok () => diskReads σ fuel rs r.2

/-- A call that fits, on a prompt drive that waits. -/
theorem diskReadEx_reads (hτ : τ.Prompt) (σ : Statuses) (m : Mem) (fuel lba : Nat) (io : DriveIo)
    (hpos : 0 < n)
    (hn : n ≤ 256) (hbuf : buffer + 512 * n ≤ 4294967296) :
    Drives τ io (diskReadEx σ (fuel + 1) 0 lba buffer n io).2
      (fun s => s.phase = .idle ∧ s.mem = m) fun t =>
      (diskReadEx σ (fuel + 1) 0 lba buffer n io).1 = .returned ∧ t.phase = .idle ∧
        t.mem = diskRead τ.disk lba m buffer n := by
  have hgives := (diskReadEx_gives τ σ m (fuel + 1) lba io hbuf).weaken
    (fun s (hs : s.phase = .idle ∧ s.mem = m) => ⟨hs.2, .inl hs.1⟩) fun _ ht => ht
  refine ((diskReadEx_inTime hτ fuel lba buffer io hn).and hgives).weaken (fun _ hs => hs) ?_
  exact fun t ht => ⟨ht.1, (ht.2.2 ht.1 hpos).2⟩

theorem diskReads_drives (hτ : τ.Prompt) (fuel : Nat) (rs : List SectorRead)
    (h : ∀ r ∈ rs, r.Fits) (io : DriveIo) :
    Drives τ io (diskReads σ (fuel + 1) rs io).2 (fun s => s.phase = .idle ∧ s.mem = m) fun t =>
      (diskReads σ (fuel + 1) rs io).1 = .returned ∧ t.phase = .idle ∧
        t.mem = rs.foldl (fun m r => diskRead τ.disk r.lba m r.buffer r.count) m := by
  induction rs generalizing io m with
  | nil => exact .refl io fun s hs => ⟨rfl, hs⟩
  | cons r rs ih =>
    have hfits := h r List.mem_cons_self
    have hread := diskReadEx_reads hτ σ m fuel r.lba io hfits.pos hfits.count
      hfits.buffer
    rw [diskReads]
    split
    · exact (hread.weaken (fun _ hs => hs) fun t ht => ht.2).trans
        (ih (fun r' hr => h r' (List.mem_cons_of_mem r hr)) _)
    · next hno => exact hread.weaken (fun _ hs => hs) fun t ht => (hno ht.1).elim

theorem kernelReads_drives (hτ : τ.Prompt) (fuel : Nat) (rs : List SectorRead)
    (h : ∀ r ∈ rs, r.Fits) (io : DriveIo) :
    Drives τ io (kernelReads σ (fuel + 1) rs io).2 (·.mem = m) fun t =>
      (kernelReads σ (fuel + 1) rs io).1 = .returned ∧ t.phase = .idle ∧
        t.mem = rs.foldl (fun m r => diskRead τ.disk r.lba m r.buffer r.count) m := by
  have hinit := ataInit_drives hτ σ m io
  rw [kernelReads]
  split
  · next e he =>
    refine hinit.weaken (fun _ hs => hs) fun t ht => ?_
    cases he.symm.trans ht.1
  · exact (hinit.weaken (fun _ hs => hs) fun t ht => ht.2).trans (diskReads_drives hτ fuel rs h _)

/-- A prompt drive, in whatever state it is found: `ata_init` accepts it, and then every sequence of
reads returns with the memory that the reads of the file system's model say. -/
theorem kernel_reads_from_drive (hτ : τ.Prompt) (fuel : Nat) (rs : List SectorRead)
    (h : ∀ r ∈ rs, r.Fits)
    (hrun : Run (AtaStep τ) s (kernelReads σ (fuel + 1) rs .start).2.log t) :
    (kernelReads σ (fuel + 1) rs .start).1 = .returned ∧ t.phase = .idle ∧
      t.mem = rs.foldl (fun m r => diskRead τ.disk r.lba m r.buffer r.count) s.mem :=
  (kernelReads_drives hτ fuel rs h .start).run_from_start rfl hrun

/-- A drive that has been used wrongly, and one sector. -/
theorem kernel_reads_from_drive_astray : ∃ t,
    Run (AtaStep quickDrive) ⟨fun _ => 0, .astray, zeroed⟩
      (kernelReads (readyAfter 3) 1 [⟨0, 4096, 1⟩] .start).2.log t ∧
    t.mem = diskRead zeroed 0 zeroed 4096 1 := by
  have hlog : (kernelReads (readyAfter 3) 1 [⟨0, 4096, 1⟩] .start).2.log =
      [.outb ataPrimaryCtrl 0x04, .outb ataPrimaryCtrl 0x00, .inb ataRegStatus 0x50,
        .outb ataRegDevice 0xE0, .inb ataRegStatus 0x50] ++ oneSectorLog := by decide +kernel
  have hinit : Run (AtaStep quickDrive) ⟨fun _ => 0, .astray, zeroed⟩
      [.outb ataPrimaryCtrl 0x04, .outb ataPrimaryCtrl 0x00, .inb ataRegStatus 0x50,
        .outb ataRegDevice 0xE0, .inb ataRegStatus 0x50]
      ⟨Function.update (fun _ => 0) ataRegDevice 0xE0, .idle, zeroed⟩ :=
    .cons (.reset (by decide)) <| .cons (.release (by decide) rfl) <|
      .cons (.poll (.inl rfl) (.settled idleStatus_drdy)) <|
      .cons (.register (.inl rfl) (by decide)) <|
      .cons (.poll (.inl rfl) (.idle idleStatus_drdy)) .nil
  obtain ⟨t, hread⟩ := quickDrive_read (s := ⟨_, .idle, zeroed⟩) rfl
  have hrun := Run.append_iff.2 ⟨_, hinit, hread⟩
  rw [← hlog] at hrun
  have hfits : ∀ r ∈ [(⟨0, 4096, 1⟩ : SectorRead)], r.Fits :=
    List.forall_mem_singleton.2 ⟨by decide, by decide, by decide⟩
  exact ⟨t, hrun, (kernel_reads_from_drive quickDrive_prompt 0 _ hfits hrun).2.2⟩

/-- A block that the model of `read_fs_block` gives comes from the drive. -/
theorem readFsBlockIo_drives (hτ : τ.Prompt) (fuel : Nat) (io : DriveIo) {fs : FileSystem}
    (hok : readFsBlock fs τ.disk blockId m buf capacity = .ok m')
    (hpos : 0 < fs.gBlockSize / 512) (hsize : fs.gBlockSize / 512 ≤ 256)
    (hbuf : buf + capacity ≤ 4294967296) :
    Drives τ io (readFsBlockIo σ (fuel + 1) fs blockId buf io).2
      (fun s => s.phase = .idle ∧ s.mem = m) fun t =>
      (readFsBlockIo σ (fuel + 1) fs blockId buf io).1 = .returned ∧ t.phase = .idle ∧
        t.mem = m' := by
  rw [readFsBlock] at hok
  rw [readFsBlockIo]
  split at hok
  · cases hok
  · next hid =>
    rw [if_neg hid]
    dsimp only at hok ⊢
    split at hok
    · cases hok
    · next hcap =>
      cases hok
      exact diskReadEx_reads hτ σ m fuel _ io hpos hsize (by omega)

end KernelCustom
