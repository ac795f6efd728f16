import KernelCustom.DriveIo
import KernelCustom.Polling

namespace KernelCustom
open Word32 Polling
set_option autoImplicit true

/-- Why `ata_init` gives up. -/
inductive AtaFailure where
  | timedOut
  | floating
  | deviceError
  | notReady
  deriving DecidableEq

/-- The `dbg_msg` text of a failure. -/
def AtaFailure.message : AtaFailure → String
  | timedOut => "initialization timed out"
  | floating => "no device detected (bus floating)"
  | deviceError => "device reported error during init"
  | notReady => "drive not ready (DRDY timeout)"

/-- `while ((inb(ATA_REG_STATUS) & ATA_SR_BSY) && timeout--)`: what is left in `timeout`. -/
def waitWhileBusy (σ : Statuses) : Nat → DriveIo → Nat × DriveIo
  | 0, io =>
    let r := io.inb σ ataRegStatus
    if isSet r.1 ataSrBsy then (sub 0 1, r.2) else (0, r.2)
  | timeout + 1, io =>
    let r := io.inb σ ataRegStatus
    if isSet r.1 ataSrBsy then waitWhileBusy σ timeout r.2 else (timeout + 1, r.2)

/-- The loop that waits for `DRDY`: what is left in `poll`. -/
def pollReady (σ : Statuses) : Nat → DriveIo → Except AtaFailure Nat × DriveIo
  | poll, io =>
    let r := io.inb σ ataRegStatus
    if r.1 = 0xFF then (.error .floating, r.2)
    else if isSet r.1 ataSrErr then (.error .deviceError, r.2)
    else if isSet r.1 ataSrDrdy then (.ok poll, r.2)
    else
      match poll with
      | 0 => (.ok (sub 0 1), r.2)
      | poll + 1 => pollReady σ poll r.2

/-- The second half of `ata_init`: the drive is selected and has to become ready. -/
def selectDrive (σ : Statuses) (io : DriveIo) : Except AtaFailure Unit × DriveIo :=
  let io := io.outb ataRegDevice ataMaster
  let r := pollReady σ 100000 io
  match r.1 with
  | .error e => (.error e, r.2)
  | .ok poll => if poll = 0 then (.error .notReady, r.2) else (.ok (), r.2)

def resetController (io : DriveIo) : DriveIo :=
  (io.outb ataPrimaryCtrl 0x04).outb ataPrimaryCtrl 0x00

/-- `ata_init`; `true` is `.ok ()`. -/
def ataInit (σ : Statuses) (io : DriveIo) : Except AtaFailure Unit × DriveIo :=
  let busy := waitWhileBusy σ 100000 (resetController io)
  if busy.1 = 0 then (.error .timedOut, busy.2) else selectDrive σ busy.2

/-- A status that ends the wait for `DRDY`. A floating bus has `ERR` set too. -/
def settles (status : UInt8) : Prop := isSet status ataSrDrdy = true ∨ isSet status ataSrErr = true

theorem not_settles : ¬ settles status ↔
    isSet status ataSrDrdy = false ∧ isSet status ataSrErr = false := by
  simp only [settles, not_or, Bool.not_eq_true]

theorem settles.ready (h : settles status) (hok : isSet status ataSrErr = false) :
    isSet status ataSrDrdy = true := by
  apply h.resolve_right
  rw [hok]
  exact Bool.false_ne_true

theorem waitWhileBusy_busy (h : isSet (σ io.reads) ataSrBsy = true) (timeout : Nat) :
    waitWhileBusy σ (timeout + 1) io = waitWhileBusy σ timeout (io.inb σ ataRegStatus).2 := by
  rw [waitWhileBusy]
  exact if_pos h

/-- The first poll without `BSY` leaves what the polls before it have not used up. -/
theorem waitWhileBusy_first (io : DriveIo)
    (h : FirstAt (fun i => isSet (σ (io.reads + i)) ataSrBsy = false) k) (hk : k ≤ timeout) :
    (waitWhileBusy σ timeout io).1 = timeout - k ∧
      (waitWhileBusy σ timeout io).2.reads = io.reads + k + 1 := by
  induction k generalizing timeout io with
  | zero =>
    have hidle : isSet (σ io.reads) ataSrBsy = false := h.here
    cases timeout with
    | zero => simp [waitWhileBusy, hidle]
    | succ timeout => simp [waitWhileBusy, hidle]
  | succ k ih =>
    obtain ⟨timeout, rfl⟩ : ∃ t, timeout = t + 1 := ⟨timeout - 1, by omega⟩
    have hrest := @ih timeout (io.inb σ ataRegStatus).2
    simp only [DriveIo.inb_reads, Nat.add_assoc, Nat.add_comm 1] at hrest
    obtain ⟨hleft, hreads⟩ := hrest h.tail.2 (by omega)
    rw [waitWhileBusy_busy (by simpa using h.tail.1), hleft, hreads]
    omega

/-- When all the polls see `BSY`, the last decrement wraps round. -/
theorem waitWhileBusy_never (io : DriveIo)
    (h : ∀ i, i ≤ timeout → isSet (σ (io.reads + i)) ataSrBsy = true) :
    (waitWhileBusy σ timeout io).1 = 4294967295 ∧
      (waitWhileBusy σ timeout io).2.reads = io.reads + timeout + 1 := by
  induction timeout generalizing io with
  | zero =>
    have hbusy : isSet (σ io.reads) ataSrBsy = true := h 0 (Nat.le_refl 0)
    rw [waitWhileBusy]
    simp only [DriveIo.inb_value, hbusy, if_true]
    exact ⟨rfl, rfl⟩
  | succ timeout ih =>
    have hrest := ih (io.inb σ ataRegStatus).2
    simp only [DriveIo.inb_reads, Nat.add_assoc, Nat.add_comm 1] at hrest
    obtain ⟨hleft, hreads⟩ := hrest fun i hi => h (i + 1) (by omega)
    rw [waitWhileBusy_busy (h 0 (Nat.zero_le _))]
    exact ⟨hleft, by omega⟩

theorem isSet_floating (h : isSet status ataSrErr = false) : status ≠ 0xFF := by
  rintro rfl
  exact absurd h (by decide)

/-! One round of the wait for `DRDY`: an error, a ready drive, and neither. -/

theorem pollReady_failed (h : isSet (σ io.reads) ataSrErr = true) (poll : Nat) :
    ∃ e, (pollReady σ poll io).1 = .error e := by
  rw [pollReady.eq_def]
  by_cases hbus : (io.inb σ ataRegStatus).1 = 0xFF
  · exact ⟨.floating, congrArg Prod.fst (if_pos hbus)⟩
  · exact ⟨.deviceError, congrArg Prod.fst ((if_neg hbus).trans (if_pos h))⟩

theorem pollReady_ready (h : isSet (σ io.reads) ataSrDrdy = true)
    (hok : isSet (σ io.reads) ataSrErr = false) (poll : Nat) :
    pollReady σ poll io = (.ok poll, (io.inb σ ataRegStatus).2) := by
  have hbus : (io.inb σ ataRegStatus).1 ≠ 0xFF := isSet_floating hok
  have hno : ¬ isSet (io.inb σ ataRegStatus).1 ataSrErr = true := by
    rw [DriveIo.inb_value, hok]
    decide
  rw [pollReady.eq_def]
  exact (if_neg hbus).trans ((if_neg hno).trans (if_pos h))

theorem pollReady_unsettled (h : ¬ settles (σ io.reads)) :
    (pollReady σ 0 io).1 = .ok 4294967295 ∧
      ∀ poll, pollReady σ (poll + 1) io = pollReady σ poll (io.inb σ ataRegStatus).2 := by
  rw [not_settles] at h
  have hbus := isSet_floating h.2
  refine ⟨?_, fun poll => ?_⟩
  · rw [pollReady]
    simp only [DriveIo.inb_value, hbus, h.1, h.2, Bool.false_eq_true, if_false]
    rfl
  · rw [pollReady]
    simp only [DriveIo.inb_value, hbus, h.1, h.2, Bool.false_eq_true, if_false]

/-- The first status that settles it: an error is reported, and `DRDY` leaves what the polls before
it have not used up. -/
theorem pollReady_first (io : DriveIo) (h : FirstAt (fun i => settles (σ (io.reads + i))) j)
    (hj : j ≤ poll) :
    (isSet (σ (io.reads + j)) ataSrErr = true → ∃ e, (pollReady σ poll io).1 = .error e) ∧
    (isSet (σ (io.reads + j)) ataSrErr = false → (pollReady σ poll io).1 = .ok (poll - j) ∧
      (pollReady σ poll io).2.reads = io.reads + j + 1) := by
  induction j generalizing poll io with
  | zero =>
    have hset : settles (σ io.reads) := h.here
    refine ⟨fun herr => pollReady_failed herr poll, fun hok => ?_⟩
    rw [pollReady_ready (hset.ready hok) hok]
    exact ⟨rfl, rfl⟩
  | succ j ih =>
    obtain ⟨poll, rfl⟩ : ∃ p, poll = p + 1 := ⟨poll - 1, by omega⟩
    have hrest := @ih poll (io.inb σ ataRegStatus).2
    simp only [DriveIo.inb_reads, Nat.add_assoc, Nat.add_comm 1] at hrest
    have hleft : poll + 1 - (j + 1) = poll - j := by omega
    rw [(pollReady_unsettled h.tail.1).2, hleft]
    exact hrest h.tail.2 (by omega)

/-- When no poll settles it, the last decrement wraps round. -/
theorem pollReady_never (io : DriveIo)
    (h : ∀ i, i ≤ poll → ¬ settles (σ (io.reads + i))) :
    (pollReady σ poll io).1 = .ok 4294967295 := by
  induction poll generalizing io with
  | zero => exact (pollReady_unsettled (h 0 (Nat.le_refl 0))).1
  | succ poll ih =>
    have hrest := ih (io.inb σ ataRegStatus).2
    simp only [DriveIo.inb_reads, Nat.add_assoc, Nat.add_comm 1] at hrest
    rw [(pollReady_unsettled (h 0 (Nat.zero_le _))).2]
    exact hrest fun i hi => h (i + 1) (by omega)

/-- The drive counts as ready when the first status that settles it has `DRDY` without `ERR` and is
not the last that is polled, and when no status settles it. -/
theorem selectDrive_ok_iff (σ : Statuses) (io : DriveIo) : (selectDrive σ io).1 = .ok () ↔
    (∃ j, j < 100000 ∧ FirstAt (fun i => settles (σ (io.reads + i))) j ∧
      isSet (σ (io.reads + j)) ataSrErr = false) ∨
    ∀ i, i ≤ 100000 → ¬ settles (σ (io.reads + i)) := by
  rcases firstAt_or_never (fun i => settles (σ (io.reads + i))) 100000 with
    ⟨j, hj, hfirst⟩ | hnever
  · obtain ⟨herr, hready⟩ := pollReady_first (io.outb ataRegDevice ataMaster) hfirst hj
    have hsettled : ¬ ∀ i, i ≤ 100000 → ¬ settles (σ (io.reads + i)) :=
      fun h => h j hj hfirst.here
    rw [or_iff_left hsettled]
    cases hbit : isSet (σ (io.reads + j)) ataSrErr with
    | true =>
      obtain ⟨e, he⟩ := herr hbit
      rw [selectDrive, he]
      refine iff_of_false nofun ?_
      rintro ⟨j', -, hfirst', hok⟩
      rw [← hfirst.unique hfirst', hbit] at hok
      cases hok
    | false =>
      rw [selectDrive, (hready hbit).1]
      dsimp only
      by_cases hlast : 100000 - j = 0
      · rw [if_pos hlast]
        refine iff_of_false nofun ?_
        rintro ⟨j', hj', hfirst', -⟩
        have := hfirst.unique hfirst'
        omega
      · rw [if_neg hlast]
        exact iff_of_true rfl ⟨j, by omega, hfirst, hbit⟩
  · rw [selectDrive, pollReady_never (io.outb ataRegDevice ataMaster) hnever]
    exact iff_of_true rfl (.inr hnever)

/-- The reads behind a drive that becomes ready. -/
theorem selectDrive_reads (hj : j < 100000)
    (h : FirstAt (fun i => settles (σ (io.reads + i))) j)
    (hok : isSet (σ (io.reads + j)) ataSrErr = false) :
    (selectDrive σ io).2.reads = io.reads + j + 1 := by
  obtain ⟨hpoll, hreads⟩ :=
    (pollReady_first (io.outb ataRegDevice ataMaster) h (Nat.le_of_lt hj)).2 hok
  rw [selectDrive, hpoll]
  dsimp only
  rw [if_neg (by omega)]
  exact hreads

/-- The first polling loop of a call. -/
def busyLoop (σ : Statuses) : Nat × DriveIo := waitWhileBusy σ 100000 (resetController .start)

/-- A drive is reported only when `BSY` has been seen clear in the first loop and the last status
has `DRDY` without `ERR`; it is not when a bit stays wrong through all the polls of its loop. -/
structure ReportsDrive (σ : Statuses) : Prop where
  idle : (ataInit σ .start).1 = .ok () →
    ∃ i, i < (busyLoop σ).2.reads ∧ isSet (σ i) ataSrBsy = false
  ready : (ataInit σ .start).1 = .ok () →
    isSet (σ ((ataInit σ .start).2.reads - 1)) ataSrDrdy = true ∧
      isSet (σ ((ataInit σ .start).2.reads - 1)) ataSrErr = false
  stillBusy : (∀ i, i ≤ 100000 → isSet (σ i) ataSrBsy = true) → (ataInit σ .start).1 ≠ .ok ()
  stillNotReady : (∀ i, i ≤ 100000 → isSet (σ ((busyLoop σ).2.reads + i)) ataSrDrdy = false) →
    (ataInit σ .start).1 ≠ .ok ()

/-- `BSY` is clear at some poll, and unless that is the last one, some status of the second loop
settles it. Or `BSY` is never clear, but the second loop then ends with an error or at its last
poll. -/
def SettledInTime (σ : Statuses) : Prop :=
  (∃ k, k ≤ 100000 ∧ FirstAt (fun i => isSet (σ i) ataSrBsy = false) k ∧
    (k < 100000 → ∃ j, j ≤ 100000 ∧ settles (σ (k + 1 + j)))) ∨
  (∀ i, i ≤ 100000 → isSet (σ i) ataSrBsy = true) ∧
    ∃ j, j ≤ 100000 ∧ FirstAt (fun i => settles (σ (100001 + i))) j ∧
      (j < 100000 → isSet (σ (100001 + j)) ataSrErr = true)

/-- A drive that is refused is not reported. -/
theorem ReportsDrive.of_refused (h : (ataInit σ .start).1 ≠ .ok ()) : ReportsDrive σ :=
  ⟨fun hok => (h hok).elim, fun hok => (h hok).elim, fun _ => h, fun _ => h⟩

theorem resetController_reads : (resetController .start).reads = 0 := rfl

theorem busyLoop_first (h : FirstAt (fun i => isSet (σ i) ataSrBsy = false) k) (hk : k ≤ 100000) :
    (busyLoop σ).1 = 100000 - k ∧ (busyLoop σ).2.reads = k + 1 := by
  have hfirst := @waitWhileBusy_first σ k 100000 (resetController .start)
  rw [resetController_reads] at hfirst
  simp only [Nat.zero_add] at hfirst
  exact hfirst h hk

theorem busyLoop_never (h : ∀ i, i ≤ 100000 → isSet (σ i) ataSrBsy = true) :
    (busyLoop σ).1 = 4294967295 ∧ (busyLoop σ).2.reads = 100001 := by
  have hnever := @waitWhileBusy_never 100000 σ (resetController .start)
  rw [resetController_reads] at hnever
  simp only [Nat.zero_add] at hnever
  exact hnever h

theorem ataInit_timedOut (h : (busyLoop σ).1 = 0) : (ataInit σ .start).1 ≠ .ok () := by
  have herr : ataInit σ .start = (.error .timedOut, (busyLoop σ).2) := if_pos h
  rw [herr]
  nofun

theorem ataInit_selects (h : (busyLoop σ).1 ≠ 0) :
    ataInit σ .start = selectDrive σ (busyLoop σ).2 := if_neg h

/-- Behind a first loop that has seen `BSY` clear, the second loop must not run out. -/
theorem reportsDrive_idle_iff (hidle : isSet (σ k) ataSrBsy = false) (hk : k ≤ 100000)
    (hleft : (busyLoop σ).1 ≠ 0) (hreads : (busyLoop σ).2.reads = k + 1) :
    ReportsDrive σ ↔ ∃ j, j ≤ 100000 ∧ settles (σ (k + 1 + j)) := by
  have hsel := ataInit_selects hleft
  constructor
  · intro hrep
    by_contra hnone
    have hnever : ∀ i, i ≤ 100000 → ¬ settles (σ ((busyLoop σ).2.reads + i)) := by
      intro i hi hset
      rw [hreads] at hset
      exact hnone ⟨i, hi, hset⟩
    refine hrep.stillNotReady (fun i hi => ?_) (hsel ▸ (selectDrive_ok_iff ..).2 (.inr hnever))
    exact (not_settles.1 (hnever i hi)).1
  · rintro ⟨j, hj, hset⟩
    by_cases hok : (ataInit σ .start).1 = .ok ()
    · rw [hsel, selectDrive_ok_iff] at hok
      rcases hok with ⟨j', hj', hfirst, herr⟩ | hnever
      · have hlast := selectDrive_reads hj' hfirst herr
        have hready : isSet (σ ((busyLoop σ).2.reads + j')) ataSrDrdy = true :=
          hfirst.here.ready herr
        refine ⟨fun _ => ⟨k, by omega, hidle⟩, fun _ => ?_, fun hbusy => ?_, fun hnone => ?_⟩
        · rw [hsel, hlast]
          exact ⟨hready, herr⟩
        · rw [hbusy k hk] at hidle
          cases hidle
        · have hclear := hnone j' (Nat.le_of_lt hj')
          rw [hready] at hclear
          cases hclear
      · rw [hreads] at hnever
        exact (hnever j hj hset).elim
    · exact .of_refused hok

/-- Behind a first loop that has run out unnoticed, the second loop must not end well. -/
theorem reportsDrive_busy_iff (hbusy : ∀ i, i ≤ 100000 → isSet (σ i) ataSrBsy = true) :
    ReportsDrive σ ↔ ∃ j, j ≤ 100000 ∧ FirstAt (fun i => settles (σ (100001 + i))) j ∧
      (j < 100000 → isSet (σ (100001 + j)) ataSrErr = true) := by
  obtain ⟨hleft, hreads⟩ := busyLoop_never hbusy
  have hsel : ataInit σ .start = selectDrive σ (busyLoop σ).2 :=
    ataInit_selects (by rw [hleft]; decide)
  have hok := selectDrive_ok_iff σ (busyLoop σ).2
  rw [← hsel, hreads] at hok
  have hrep : ReportsDrive σ ↔ (ataInit σ .start).1 ≠ .ok () :=
    ⟨fun h => h.stillBusy hbusy, .of_refused⟩
  rw [hrep, ne_eq, hok]
  constructor
  · intro hno
    rcases firstAt_or_never (fun i => settles (σ (100001 + i))) 100000 with
      ⟨j, hj, hfirst⟩ | hnever
    · refine ⟨j, hj, hfirst, fun hlt => ?_⟩
      by_contra herr
      exact hno (.inl ⟨j, hlt, hfirst, by simpa using herr⟩)
    · exact (hno (.inr hnever)).elim
  · rintro ⟨j, hj, hfirst, herr⟩ (⟨j', hj', hfirst', hok'⟩ | hnever)
    · have heq := hfirst.unique hfirst'
      subst heq
      rw [herr hj'] at hok'
      cases hok'
    · exact hnever j hj hfirst.here

/-- `ata_init` reports a ready drive exactly as it should when neither loop runs out unnoticed. -/
theorem drive_reported_iff (σ : Statuses) : ReportsDrive σ ↔ SettledInTime σ := by
  rcases firstAt_or_never (fun i => isSet (σ i) ataSrBsy = false) 100000 with
    ⟨k, hk, hfirst⟩ | hnever
  · obtain ⟨hleft, hreads⟩ := busyLoop_first hfirst hk
    have hsome : ¬ ∀ i, i ≤ 100000 → isSet (σ i) ataSrBsy = true := by
      intro hbusy
      have hidle : isSet (σ k) ataSrBsy = false := hfirst.here
      rw [hbusy k hk] at hidle
      cases hidle
    have hcond : SettledInTime σ ↔
        (k < 100000 → ∃ j, j ≤ 100000 ∧ settles (σ (k + 1 + j))) := by
      constructor
      · rintro (⟨k', -, hfirst', hset⟩ | ⟨hbusy, -⟩)
        · rwa [hfirst.unique hfirst']
        · exact (hsome hbusy).elim
      · exact fun hset => .inl ⟨k, hk, hfirst, hset⟩
    rw [hcond]
    by_cases hlast : k < 100000
    · rw [reportsDrive_idle_iff hfirst.here hk (by omega) hreads]
      exact ⟨fun h _ => h, fun h => h hlast⟩
    · refine iff_of_true (.of_refused (ataInit_timedOut (by omega))) ?_
      exact fun h => (hlast h).elim
  · have hbusy : ∀ i, i ≤ 100000 → isSet (σ i) ataSrBsy = true := by
      intro i hi
      simpa using hnever i hi
    rw [reportsDrive_busy_iff hbusy]
    constructor
    · exact fun h => .inr ⟨hbusy, h⟩
    · rintro (⟨k, hk, hfirst, -⟩ | ⟨-, h⟩)
      · exact (hnever k hk hfirst.here).elim
      · exact h

/-- A drive that stays busy for ever is reported as ready. -/
theorem busy_drive_reported : (ataInit (fun _ => 0x80) .start).1 = .ok () ∧
    ¬ ReportsDrive (fun _ => 0x80) := by
  have hbsy : isSet 0x80 ataSrBsy = true := by decide
  have hunset : ¬ settles 0x80 := by
    rintro (hset | hset)
    · exact absurd hset (by decide)
    · exact absurd hset (by decide)
  have hbusy : ∀ i, i ≤ 100000 → isSet ((fun _ => 0x80 : Statuses) i) ataSrBsy = true :=
    fun _ _ => hbsy
  have hnever : ∀ i, i ≤ 100000 →
      ¬ settles ((fun _ => 0x80 : Statuses) ((busyLoop fun _ => 0x80).2.reads + i)) :=
    fun _ _ => hunset
  have hok : (ataInit (fun _ => 0x80) .start).1 = .ok () := by
    rw [ataInit_selects (by rw [(busyLoop_never hbusy).1]; decide), selectDrive_ok_iff]
    exact .inr hnever
  exact ⟨hok, fun h => h.stillBusy hbusy hok⟩

end KernelCustom
