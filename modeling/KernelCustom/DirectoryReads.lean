import KernelCustom.DirectoryScan

namespace KernelCustom
open Word32 ByteStore CString
set_option autoImplicit true

/-- What a scanner reads of a used entry, beside the seven bytes that the loop has read. -/
abbrev VisitReads := Mem → Nat → List Nat

/-- How many bytes of its first string `strncmp` reads. -/
def strncmpReads (s t : Nat → UInt8) : Nat → Nat
  | 0 => 0
  | n + 1 =>
    if s 0 ≠ t 0 ∨ s 0 = 0 then 1
    else strncmpReads (fun i => s (i + 1)) (fun i => t (i + 1)) n + 1

/-- `find_inode_in_dir` compares the name in the block. -/
def findReads (name : Text) : VisitReads := fun buf entry =>
  List.range' (entry + 8)
    (strncmpReads (entryName buf entry) name.char (entryNameLen buf entry))

/-- `ext2_lookup` copies the name. -/
def lookupReads : VisitReads := fun buf entry => List.range' (entry + 8) (entryNameLen buf entry)

/-- `ext2_ls` copies at most 255 bytes of the name, and it reads `file_type`. -/
def lsReads : VisitReads := fun buf entry =>
  let len := if 255 < entryNameLen buf entry then 255 else entryNameLen buf entry
  List.range' (entry + 8) len ++ [entry + 7]

/-- The loop of `scanEntries` once more: the indices of the block buffer that it reads. -/
def entryReads (gBlockSize : Nat) (visit : Visit σ) (reads : VisitReads) (buf : Mem) :
    Nat → Nat → σ → List Nat
  | 0, _, _ => []
  | fuel + 1, offset, result =>
    if offset < gBlockSize then
      let recLen := List.range' (offset + 4) 2
      if entryRecLen buf offset = 0 ∨ gBlockSize < entryRecLen buf offset then recLen
      else
        let used := List.range' offset 4 ++ if entryInode buf offset ≠ 0 then [offset + 6] else []
        let r :=
          if entryInode buf offset ≠ 0 ∧ 0 < entryNameLen buf offset then visit buf offset result
          else (result, false)
        let visited :=
          if entryInode buf offset ≠ 0 ∧ 0 < entryNameLen buf offset then reads buf offset else []
        let rest :=
          if r.2 then []
          else entryReads gBlockSize visit reads buf fuel
            (wrap (offset + entryRecLen buf offset)) r.1
        recLen ++ used ++ visited ++ rest
    else []

/-- A visit is settled by the header and the bytes that it is said to read. -/
def ReadsOnly (visit : Visit σ) (reads : VisitReads) : Prop :=
  ∀ buf buf' entry result, SameOn buf buf' entry (entry + 7) →
    (∀ i ∈ reads buf entry, buf' i = buf i) → visit buf' entry result = visit buf entry result

/-- The records that the `rec_len` chain of a block leads to. -/
inductive ChainReaches (gBlockSize : Nat) (buf : Mem) : Nat → Nat → Prop
  | here : ChainReaches gBlockSize buf offset offset
  | later : offset < gBlockSize → 0 < entryRecLen buf offset →
      entryRecLen buf offset ≤ gBlockSize →
      ChainReaches gBlockSize buf (offset + entryRecLen buf offset) entry →
      ChainReaches gBlockSize buf offset entry

/-- A record has its `rec_len` in the block; if that lets the scan go on and the inode number is
not zero, it has its `name_len` there too, and a name with all of its bytes. -/
structure RecordInside (gBlockSize : Nat) (buf : Mem) (entry : Nat) : Prop where
  rec_len : entry + 6 ≤ gBlockSize
  name_len : 0 < entryRecLen buf entry → entryRecLen buf entry ≤ gBlockSize →
    entryInode buf entry ≠ 0 → entry + 7 ≤ gBlockSize
  name : 0 < entryRecLen buf entry → entryRecLen buf entry ≤ gBlockSize →
    entryInode buf entry ≠ 0 → 0 < entryNameLen buf entry →
    entry + 8 + entryNameLen buf entry ≤ gBlockSize

/-- All records of the chain from an offset on that begin in the block end in it. -/
def RecordsInside (gBlockSize : Nat) (buf : Mem) (offset : Nat) : Prop :=
  ∀ entry, ChainReaches gBlockSize buf offset entry → entry < gBlockSize →
    RecordInside gBlockSize buf entry

/-- The three scanners, whatever they look for, read nothing behind the block in their buffer. -/
structure ScansStayInside (gBlockSize : Nat) (buf : Mem) : Prop where
  find : ∀ name, ∀ i ∈ entryReads gBlockSize (visitFind name) (findReads name) buf
    (gBlockSize + 1) 0 0, i < gBlockSize
  lookup : ∀ name, ∀ i ∈ entryReads gBlockSize (visitLookup name) lookupReads buf
    (gBlockSize + 1) 0 0, i < gBlockSize
  ls : ∀ out, ∀ i ∈ entryReads gBlockSize visitLs lsReads buf (gBlockSize + 1) 0 out,
    i < gBlockSize

theorem entryNameLen_le (buf : Mem) (entry : Nat) : ¬ 255 < entryNameLen buf entry := by
  have := (buf (entry + 6)).toNat_lt
  rw [entryNameLen]
  omega

theorem lsReads_eq (buf : Mem) (entry : Nat) :
    lsReads buf entry = lookupReads buf entry ++ [entry + 7] := by
  rw [lsReads, lookupReads, if_neg (entryNameLen_le buf entry)]

theorem strncmpReads_le (s t : Nat → UInt8) (n : Nat) : strncmpReads s t n ≤ n := by
  induction n generalizing s t with
  | zero => exact Nat.le_refl 0
  | succ n ih =>
    rw [strncmpReads]
    split
    · exact Nat.succ_le_succ (Nat.zero_le n)
    · exact Nat.succ_le_succ (ih _ _)

/-- `strncmp` is settled by the bytes that it reads. -/
theorem strncmp_congr (h : ∀ i < strncmpReads s t n, s' i = s i) :
    strncmp s' t n = strncmp s t n := by
  induction n generalizing s s' t with
  | zero => rfl
  | succ n ih =>
    rw [strncmpReads] at h
    rw [strncmp, strncmp]
    by_cases hstop : s 0 ≠ t 0 ∨ s 0 = 0
    · rw [if_pos hstop] at h
      rw [h 0 (by decide)]
      rcases hstop with hne | hzero
      · rw [if_pos hne, if_pos hne]
      · rw [if_pos hzero, if_pos hzero]
    · rw [if_neg hstop] at h
      obtain ⟨heq, hne⟩ := not_or.1 hstop
      rw [h 0 (by omega), if_neg heq, if_neg hne, if_neg heq, if_neg hne]
      exact ih fun i hi => h (i + 1) (by omega)

theorem entryNameLen_congr (h : SameOn buf buf' entry (entry + 7)) :
    entryNameLen buf' entry = entryNameLen buf entry := by
  rw [entryNameLen, entryNameLen, h _ (by omega) (by omega)]

theorem entryInode_congr (h : SameOn buf buf' entry (entry + 7)) :
    entryInode buf' entry = entryInode buf entry := h.load32 (by omega) (by omega)

theorem visitFind_readsOnly (name : Text) : ReadsOnly (visitFind name) (findReads name) := by
  intro buf buf' entry result hhead hreads
  have hcmp : strncmp (entryName buf' entry) name.char (entryNameLen buf entry) =
      strncmp (entryName buf entry) name.char (entryNameLen buf entry) := by
    apply strncmp_congr
    intro i hi
    exact hreads _ (List.mem_range'_1.2 ⟨by omega, by omega⟩)
  rw [visitFind, visitFind, entryNameLen_congr hhead, entryInode_congr hhead, hcmp]

theorem nameBuf_congr
    (hreads : ∀ i ∈ lookupReads buf entry, buf' i = buf i) :
    nameBuf buf' entry (entryNameLen buf entry) = nameBuf buf entry (entryNameLen buf entry) := by
  have hsame : SameOn buf buf' (entry + 8) (entry + 8 + entryNameLen buf entry) :=
    fun i hlo hhi => hreads i (List.mem_range'_1.2 ⟨hlo, hhi⟩)
  rw [nameBuf, nameBuf, bytesAt_congr hsame (Nat.le_refl _) (Nat.le_refl _)]

theorem visitLookup_readsOnly (name : Text) : ReadsOnly (visitLookup name) lookupReads := by
  intro buf buf' entry result hhead hreads
  rw [visitLookup, visitLookup, entryNameLen_congr hhead, entryInode_congr hhead,
    nameBuf_congr hreads]

theorem visitLs_readsOnly : ReadsOnly visitLs lsReads := by
  intro buf buf' entry out hhead hreads
  rw [lsReads_eq] at hreads
  have htype : entryFileType buf' entry = entryFileType buf entry :=
    hreads _ (List.mem_append_right _ List.mem_cons_self)
  simp only [visitLs, entryNameLen_congr hhead, if_neg (entryNameLen_le buf entry), htype,
    nameBuf_congr fun i hi => hreads i (List.mem_append_left _ hi)]

section
variable {σ : Type} {visit : Visit σ} {reads : VisitReads} {gBlockSize : Nat} {buf : Mem}

theorem entryReads_stop (hlt : offset < gBlockSize)
    (hstop : entryRecLen buf offset = 0 ∨ gBlockSize < entryRecLen buf offset) :
    entryReads gBlockSize visit reads buf (fuel + 1) offset result =
      List.range' (offset + 4) 2 := by
  rw [entryReads, if_pos hlt]
  exact if_pos hstop

/-- The bytes that a round reads when it goes on, and those of the rounds behind it. -/
theorem forall_entryReads_iff (P : Nat → Prop) (hlt : offset < gBlockSize)
    (hgo : ¬ (entryRecLen buf offset = 0 ∨ gBlockSize < entryRecLen buf offset)) :
    (∀ i ∈ entryReads gBlockSize visit reads buf (fuel + 1) offset result, P i) ↔
      (∀ i, offset ≤ i → i < offset + 6 → P i) ∧
      (entryInode buf offset ≠ 0 → P (offset + 6)) ∧
      (entryInode buf offset ≠ 0 ∧ 0 < entryNameLen buf offset → ∀ i ∈ reads buf offset, P i) ∧
      ∀ r, (if entryInode buf offset ≠ 0 ∧ 0 < entryNameLen buf offset then
          visit buf offset result else (result, false)) = r → r.2 = false →
        ∀ i ∈ entryReads gBlockSize visit reads buf fuel
          (wrap (offset + entryRecLen buf offset)) r.1, P i := by
  rw [entryReads, if_pos hlt]
  dsimp only
  rw [if_neg hgo]
  generalize hr : (if entryInode buf offset ≠ 0 ∧ 0 < entryNameLen buf offset then
    visit buf offset result else (result, false)) = r
  simp only [List.forall_mem_append, List.mem_range'_1]
  constructor
  · rintro ⟨⟨⟨hrec, hino, hlen⟩, hvisit⟩, hrest⟩
    refine ⟨fun i hlo hhi => ?_, fun hne => ?_, fun hused => ?_, ?_⟩
    · by_cases hi : i < offset + 4
      · exact hino i ⟨hlo, hi⟩
      · exact hrec i ⟨by omega, by omega⟩
    · rw [if_pos hne] at hlen
      exact hlen _ List.mem_cons_self
    · rw [if_pos hused] at hvisit
      exact hvisit
    · rintro r' rfl hgoes
      rw [if_neg (by rw [hgoes]; decide)] at hrest
      exact hrest
  · rintro ⟨hhead, hlen, hvisit, hrest⟩
    refine ⟨⟨⟨fun i hi => hhead i (by omega) (by omega), fun i hi => hhead i hi.1 (by omega),
      ?_⟩, ?_⟩, ?_⟩
    · split
      · next hne =>
        intro i hi
        rw [List.mem_singleton.1 hi]
        exact hlen hne
      · exact fun i hi => absurd hi List.not_mem_nil
    · split
      · next hused => exact hvisit hused
      · exact fun i hi => absurd hi List.not_mem_nil
    · split
      · exact fun i hi => absurd hi List.not_mem_nil
      · next hgoes => exact hrest r rfl (eq_false_of_ne_true hgoes)

/-- A scan is settled by the bytes that it reads. -/
theorem scanEntries_congr (hv : ReadsOnly visit reads)
    (h : ∀ i ∈ entryReads gBlockSize visit reads buf fuel offset result, buf' i = buf i) :
    scanEntries gBlockSize visit buf' fuel offset result =
      scanEntries gBlockSize visit buf fuel offset result := by
  induction fuel generalizing offset result with
  | zero => rfl
  | succ fuel ih =>
    rw [scanEntries, scanEntries]
    by_cases hlt : offset < gBlockSize
    swap
    · rw [if_neg hlt, if_neg hlt]
    rw [if_pos hlt, if_pos hlt]
    by_cases hstop : entryRecLen buf offset = 0 ∨ gBlockSize < entryRecLen buf offset
    · rw [entryReads_stop hlt hstop] at h
      have hrec : entryRecLen buf' offset = entryRecLen buf offset := by
        rw [entryRecLen, entryRecLen, load16, load16, h _ (List.mem_range'_1.2 (by omega)),
          h _ (List.mem_range'_1.2 (by omega))]
      rw [hrec, if_pos hstop, if_pos hstop]
    · obtain ⟨hhead, hlen, hvisit, hrest⟩ := (forall_entryReads_iff _ hlt hstop).1 h
      have hsix : SameOn buf buf' offset (offset + 6) := hhead
      have hrec : entryRecLen buf' offset = entryRecLen buf offset :=
        hsix.load16 (by omega) (by omega)
      have hino : entryInode buf' offset = entryInode buf offset :=
        hsix.load32 (by omega) (by omega)
      have hround : (if entryInode buf' offset ≠ 0 ∧ 0 < entryNameLen buf' offset then
            visit buf' offset result else (result, false)) =
          if entryInode buf offset ≠ 0 ∧ 0 < entryNameLen buf offset then
            visit buf offset result else (result, false) := by
        rw [hino]
        by_cases hne : entryInode buf offset = 0
        · rw [if_neg (fun hused => hused.1 hne), if_neg (fun hused => hused.1 hne)]
        · have hseven : SameOn buf buf' offset (offset + 7) := by
            intro i hlo hhi
            by_cases hi : i < offset + 6
            · exact hhead i hlo hi
            · obtain rfl : i = offset + 6 := by omega
              exact hlen hne
          rw [entryNameLen_congr hseven]
          by_cases hused : entryInode buf offset ≠ 0 ∧ 0 < entryNameLen buf offset
          · rw [if_pos hused, if_pos hused, hv buf buf' offset result hseven (hvisit hused)]
          · rw [if_neg hused, if_neg hused]
      rw [hrec, if_neg hstop, if_neg hstop]
      dsimp only
      rw [hround]
      generalize hr : (if entryInode buf offset ≠ 0 ∧ 0 < entryNameLen buf offset then
        visit buf offset result else (result, false)) = r at hrest ⊢
      by_cases hend : r.2 = true
      · rw [if_pos hend, if_pos hend]
      · rw [if_neg hend, if_neg hend]
        exact ih (hrest r rfl (eq_false_of_ne_true hend))

theorem RecordsInside.next (h : RecordsInside gBlockSize buf offset) (hlt : offset < gBlockSize)
    (hgo : ¬ (entryRecLen buf offset = 0 ∨ gBlockSize < entryRecLen buf offset)) :
    RecordsInside gBlockSize buf (offset + entryRecLen buf offset) :=
  fun entry hr => h entry (.later hlt (by omega) (by omega) hr)

/-- A scanner that reads no more than the names stays in a block that holds its records. -/
theorem entryReads_inside (hsize : gBlockSize ≤ 4096)
    (hreads : ∀ entry, ∀ i ∈ reads buf entry, i < entry + 8 + entryNameLen buf entry)
    (h : RecordsInside gBlockSize buf offset) (fuel : Nat) (result : σ) :
    ∀ i ∈ entryReads gBlockSize visit reads buf fuel offset result, i < gBlockSize := by
  induction fuel generalizing offset result with
  | zero => exact fun i hi => absurd hi List.not_mem_nil
  | succ fuel ih =>
    by_cases hlt : offset < gBlockSize
    · have hin := h offset .here hlt
      have hlen := hin.rec_len
      by_cases hstop : entryRecLen buf offset = 0 ∨ gBlockSize < entryRecLen buf offset
      · rw [entryReads_stop hlt hstop]
        intro i hi
        have := (List.mem_range'_1.1 hi).2
        omega
      · refine (forall_entryReads_iff _ hlt hstop).2
          ⟨fun i _ hi => by omega, fun hne => ?_, fun hused i hi => ?_, fun r _ _ => ?_⟩
        · have := hin.name_len (by omega) (by omega) hne
          omega
        · have hname := hin.name (by omega) (by omega) hused.1 hused.2
          have := hreads offset i hi
          omega
        · rw [wrap_of_lt (by omega)]
          exact ih (h.next hlt hstop) r.1
    · rw [entryReads, if_neg hlt]
      exact fun i hi => absurd hi List.not_mem_nil

/-- A scanner that reads all names and never leaves the loop shows where the records are. -/
theorem recordsInside_of_entryReads (hsize : gBlockSize ≤ 4096)
    (hgoes : ∀ entry result, (visit buf entry result).2 = false)
    (hreads : ∀ entry, ∀ i < entryNameLen buf entry, entry + 8 + i ∈ reads buf entry)
    (hfuel : gBlockSize < fuel + offset)
    (h : ∀ i ∈ entryReads gBlockSize visit reads buf fuel offset result, i < gBlockSize) :
    RecordsInside gBlockSize buf offset := by
  induction fuel generalizing offset result with
  | zero =>
    intro entry hr hlt
    cases hr with
    | here => omega
    | later hoff _ _ _ => omega
  | succ fuel ih =>
    intro entry hr hlt
    cases hr with
    | here =>
      by_cases hstop : entryRecLen buf offset = 0 ∨ gBlockSize < entryRecLen buf offset
      · rw [entryReads_stop hlt hstop] at h
        have := h (offset + 5) (List.mem_range'_1.2 (by omega))
        exact ⟨by omega, fun _ _ => by omega, fun _ _ => by omega⟩
      · obtain ⟨hhead, hlen, hvisit, -⟩ := (forall_entryReads_iff _ hlt hstop).1 h
        refine ⟨hhead (offset + 5) (by omega) (by omega), fun _ _ => hlen, fun _ _ hne hpos => ?_⟩
        have hlast := hvisit ⟨hne, hpos⟩ _ (hreads offset (entryNameLen buf offset - 1) (by omega))
        omega
    | later hoff hpos hle hr =>
      obtain ⟨-, -, -, hrest⟩ := (forall_entryReads_iff _ hoff (by omega)).1 h
      have hgo : ∀ r, (if entryInode buf offset ≠ 0 ∧ 0 < entryNameLen buf offset then
          visit buf offset result else (result, false)) = r → r.2 = false := by
        rintro r rfl
        split
        · exact hgoes offset result
        · rfl
      have hin := hrest _ rfl (hgo _ rfl)
      rw [wrap_of_lt (by omega)] at hin
      exact ih (by omega) hin entry hr hlt

end

/-- The records of a well-formed block are inside it. -/
theorem EntriesAt.recordsInside (h : EntriesAt buf gBlockSize offset es) :
    RecordsInside gBlockSize buf offset := by
  induction h with
  | done =>
    intro entry hr hlt
    cases hr with
    | here => omega
    | later hoff _ _ _ => omega
  | entry hname hrec _ _ ih =>
    intro entry hr hlt
    cases hr with
    | here => exact ⟨by omega, fun _ _ _ => by omega, fun _ _ _ _ => by omega⟩
    | later _ _ _ hr => exact ih entry hr hlt

/-- Nothing checks a name or a header against the end of the block. The scanners stay inside it
exactly when every record that the chain leads to ends in it. -/
theorem scansStayInside_iff
    (hbs : gBlockSize = 1024 ∨ gBlockSize = 2048 ∨ gBlockSize = 4096) (buf : Mem) :
    ScansStayInside gBlockSize buf ↔ RecordsInside gBlockSize buf 0 := by
  have hsize : gBlockSize ≤ 4096 := by omega
  constructor
  · intro h
    refine recordsInside_of_entryReads hsize (fun _ _ => rfl) (fun entry i hi => ?_) (by omega)
      (h.ls ⟨[], []⟩)
    rw [lsReads_eq]
    exact List.mem_append_left _ (List.mem_range'_1.2 ⟨by omega, by omega⟩)
  · intro h
    refine ⟨fun name => entryReads_inside hsize (fun entry i hi => ?_) h _ _,
      fun name => entryReads_inside hsize (fun entry i hi => ?_) h _ _,
      fun out => entryReads_inside hsize (fun entry i hi => ?_) h _ _⟩
    · have hle := strncmpReads_le (entryName buf entry) name.char (entryNameLen buf entry)
      have := (List.mem_range'_1.1 hi).2
      omega
    · exact (List.mem_range'_1.1 hi).2
    · rw [lsReads_eq] at hi
      rcases List.mem_append.1 hi with hi | hi
      · exact (List.mem_range'_1.1 hi).2
      · rw [List.mem_singleton.1 hi]
        omega

/-- A block with one record, of a file `ab` with inode 5. -/
def oneRecordBlock : Mem := sparseDisk
  [(0, 5), (5, 4), (6, 2), (7, 1), (8, 97), (9, 98)]

theorem scansStayInside_oneRecordBlock : ScansStayInside 1024 oneRecordBlock := by
  have hend : EntriesAt oneRecordBlock 1024 (0 + entryRecLen oneRecordBlock 0) [] := .done
  have hentries : EntriesAt oneRecordBlock 1024 0 [readDirEntry oneRecordBlock 0] :=
    .entry (by decide) (by decide) (by decide) hend
  exact (scansStayInside_iff (.inl rfl) oneRecordBlock).2 hentries.recordsInside

/-- A block whose first record leaves four bytes behind it. -/
def shortTailBlock : Mem := sparseDisk [(4, 0xFC), (5, 0x0F)]

/-- The length of a record that begins four bytes before the end is read behind the buffer. -/
theorem scan_reads_behind_block :
    ¬ ∀ gBlockSize, gBlockSize = 1024 ∨ gBlockSize = 2048 ∨ gBlockSize = 4096 →
      ∀ buf, ScansStayInside gBlockSize buf := by
  intro h
  have hls := (h 4096 (by decide) shortTailBlock).ls ⟨[], []⟩
  have hmem : (entryReads 4096 visitLs lsReads shortTailBlock 4097 0 ⟨[], []⟩).contains 4096 =
      true := by decide +kernel
  exact absurd (hls 4096 (List.contains_iff_mem.1 hmem)) (by decide)

/-- A scan that stays inside the block does not see what its buffer holds behind it. -/
theorem ScansStayInside.settled (h : ScansStayInside gBlockSize buf)
    (hsame : SameOn buf buf' 0 gBlockSize) :
    (∀ name, scanEntries gBlockSize (visitFind name) buf' (gBlockSize + 1) 0 0 =
      scanEntries gBlockSize (visitFind name) buf (gBlockSize + 1) 0 0) ∧
    (∀ name, scanEntries gBlockSize (visitLookup name) buf' (gBlockSize + 1) 0 0 =
      scanEntries gBlockSize (visitLookup name) buf (gBlockSize + 1) 0 0) ∧
    ∀ out, scanEntries gBlockSize visitLs buf' (gBlockSize + 1) 0 out =
      scanEntries gBlockSize visitLs buf (gBlockSize + 1) 0 out := by
  refine ⟨fun name => ?_, fun name => ?_, fun out => ?_⟩
  · exact scanEntries_congr (visitFind_readsOnly name)
      fun i hi => hsame i (Nat.zero_le i) (h.find name i hi)
  · exact scanEntries_congr (visitLookup_readsOnly name)
      fun i hi => hsame i (Nat.zero_le i) (h.lookup name i hi)
  · exact scanEntries_congr visitLs_readsOnly fun i hi => hsame i (Nat.zero_le i) (h.ls out i hi)

end KernelCustom
