import KernelCustom.VariableExpansion
import KernelCustom.LoggedLoop

namespace KernelCustom
open ByteStore CString LoggedLoop
set_option autoImplicit true

/-- An access of `expand_vars` to one of its arrays. -/
inductive ExpandAccess where
  | readSrc (i : Nat)
  | writeDst (i : Nat)
  deriving DecidableEq

/-- The loops that fill `name` look at `src[si]` once more when they stop. -/
def readNameLog (src : Mem) (accept : UInt8 → Bool) : Nat → Nat → List ExpandAccess
  | 0, si => [.readSrc si]
  | left + 1, si =>
    if src si ≠ 0 ∧ accept (src si) then .readSrc si :: readNameLog src accept left (si + 1)
    else [.readSrc si]

/-- The indices at which a round reads `src`; what it does behind a name is with the byte at which
the loop over the name has stopped. -/
def expandRoundLog (src : Mem) (si : Nat) : List ExpandAccess :=
  if src si = charDollar then
    if src (si + 1) = charOpenBrace then
      .readSrc si :: .readSrc (si + 1) :: readNameLog src (· ≠ charCloseBrace) 63 (si + 2)
    else .readSrc si :: readNameLog src inBareName 63 (si + 1)
  else [.readSrc si]

def copyValueLog (val : Nat → UInt8) : Nat → Nat → Expansion → Expansion × List ExpandAccess
  | 0, _, o => (o, [])
  | left + 1, v, o =>
    if val v ≠ 0 then
      let r := copyValueLog val left (v + 1) (o.put (val v))
      (r.1, .writeDst o.di :: r.2)
    else (o, [])

section
variable (e : Environment) (max : Nat)

def writePieceLog (o : Expansion) : Piece → Expansion × List ExpandAccess
  | .copied c => (o.put c, [.writeDst o.di])
  | .expanded name => copyValueLog (e.envGet (Text.ofBytes name)) (max - 1 - o.di) 0 o

def writePiecesLog : Expansion → List Piece → Expansion × List ExpandAccess
  | o, [] => (o, [])
  | o, p :: l =>
    let r := writePieceLog e max o p
    let r' := writePiecesLog r.1 l
    (r'.1, r.2 ++ r'.2)

def expandLoopLog (src : Mem) : Nat → Nat → Expansion → Option (Expansion × List ExpandAccess)
  | 0, _, _ => none
  | fuel + 1, si, o =>
    if src si ≠ 0 ∧ o.di < max - 1 then
      let r := writePiecesLog e max o ((expandRound src si).1.map Prod.snd)
      logged (expandRoundLog src si ++ r.2)
        (expandLoopLog src fuel ((expandRound src si).2 + 1) r.1)
    else some (o, [.readSrc si])

/-- `expand_vars` with its accesses to `src` and `dst`. -/
def expandVarsLog (fuel : Nat) (src dst : Mem) : Option (Expansion × List ExpandAccess) :=
  (expandLoopLog e max src fuel 0 ⟨dst, 0⟩).map fun r =>
    ({ r.1 with dst := Function.update r.1.dst r.1.di 0 }, r.2 ++ [.writeDst r.1.di])

theorem copyValueLog_fst (val : Nat → UInt8) (left v : Nat) (o : Expansion) :
    (copyValueLog val left v o).1 = copyValue val left v o := by
  induction left generalizing v o with
  | zero => rfl
  | succ left ih =>
    rw [copyValueLog, copyValue]
    split
    · exact ih _ _
    · rfl

theorem writePiecesLog_fst (o : Expansion) (l : List Piece) :
    (writePiecesLog e max o l).1 = l.foldl (writePiece e max) o := by
  induction l generalizing o with
  | nil => rfl
  | cons p l ih =>
    have hpiece : (writePieceLog e max o p).1 = writePiece e max o p := by
      cases p with
      | copied c => rfl
      | expanded name => exact copyValueLog_fst _ _ _ _
    rw [writePiecesLog, List.foldl_cons, ← hpiece]
    exact ih _

theorem expandLoopLog_fst (src : Mem) (fuel si : Nat) (o : Expansion) :
    (expandLoopLog e max src fuel si o).map Prod.fst = expandLoop e src max fuel si o := by
  induction fuel generalizing si o with
  | zero => rfl
  | succ fuel ih =>
    rw [expandLoopLog, expandLoop]
    split
    · rw [map_fst_logged, ih, writePiecesLog_fst, List.foldl_map]
    · rfl

/-- The logged function computes what `expand_vars` computes. -/
theorem expandVarsLog_fst (fuel : Nat) (src dst : Mem) :
    (expandVarsLog e max fuel src dst).map Prod.fst = expandVars fuel e src dst max := by
  rw [expandVarsLog, expandVars, ← expandLoopLog_fst, Option.map_map, Option.map_map]
  rfl

end

/-- What the round at the head of a line writes. -/
def roundPieces : List UInt8 → List Piece
  | [] => []
  | c :: l =>
    if c = charDollar then
      match l with
      | [] => [.copied charDollar]
      | d :: l' =>
        if d = charOpenBrace then [.expanded ((l'.takeWhile (· ≠ charCloseBrace)).take 63)]
        else if (l.takeWhile inBareName).take 63 = [] then [.copied charDollar, .copied d]
        else [.expanded ((l.takeWhile inBareName).take 63)]
    else [.copied c]

/-- How far the round at the head of a line moves on. A closing brace takes the character behind
it with it, and a `$` without a name always takes the next one. -/
def roundLength : List UInt8 → Nat
  | [] => 0
  | c :: l =>
    if c = charDollar then
      match l with
      | [] => 2
      | d :: l' =>
        if d = charOpenBrace then
          let n := ((l'.takeWhile (· ≠ charCloseBrace)).take 63).length
          if l'[n]? = some charCloseBrace then n + 4 else n + 3
        else if (l.takeWhile inBareName).take 63 = [] then 2
        else ((l.takeWhile inBareName).take 63).length + 1
    else 1

/-- How many bytes of a variable's value a buffer with some room takes. -/
def Environment.taken (e : Environment) (name : List UInt8) (room : Nat) : Nat :=
  ((bytesAt (e.envGet (Text.ofBytes name)) 0 room).takeWhile (· ≠ 0)).length

def Piece.size (e : Environment) (room : Nat) : Piece → Nat
  | .copied _ => 1
  | .expanded name => e.taken name room

/-- The room that some pieces leave. -/
def roomBehind (e : Environment) : Nat → List Piece → Nat
  | room, [] => room
  | room, p :: l => roomBehind e (room - p.size e room) l

/-- There is room for every piece. A value is cut off where the room ends, but a character that is
copied needs its byte. -/
def PiecesFit (e : Environment) : Nat → List Piece → Prop
  | _, [] => True
  | room, p :: l => p.size e room ≤ room ∧ PiecesFit e (room - p.size e room) l

/-- While there is room, every round of the line ends inside the line and has room for what it
writes. -/
def RoundsStay (e : Environment) : Nat → Nat → List UInt8 → Prop
  | _, _, [] => True
  | skip + 1, room, _ :: l => RoundsStay e skip room l
  | 0, room, c :: l =>
    room = 0 ∨
      roundLength (c :: l) ≤ (c :: l).length ∧ PiecesFit e room (roundPieces (c :: l)) ∧
        RoundsStay e (roundLength (c :: l) - 1) (roomBehind e room (roundPieces (c :: l))) l

def PiecesFit.decidable (e : Environment) : (room : Nat) → (l : List Piece) →
    Decidable (PiecesFit e room l)
  | _, [] => .isTrue trivial
  | room, p :: l =>
    have := PiecesFit.decidable e (room - p.size e room) l
    inferInstanceAs (Decidable (p.size e room ≤ room ∧ _))

instance (e : Environment) (room : Nat) (l : List Piece) : Decidable (PiecesFit e room l) :=
  PiecesFit.decidable e room l

def RoundsStay.decidable (e : Environment) : (skip room : Nat) → (l : List UInt8) →
    Decidable (RoundsStay e skip room l)
  | _, _, [] => .isTrue trivial
  | skip + 1, room, _ :: l => RoundsStay.decidable e skip room l
  | 0, room, c :: l =>
    have := RoundsStay.decidable e (roundLength (c :: l) - 1)
      (roomBehind e room (roundPieces (c :: l))) l
    inferInstanceAs (Decidable (room = 0 ∨ _ ∧ _ ∧ _))

instance (e : Environment) (skip room : Nat) (l : List UInt8) :
    Decidable (RoundsStay e skip room l) := RoundsStay.decidable e skip room l

/-- An access that does not go behind the index `n` of the NUL of `src`, nor behind the end of
`dst`. -/
def ExpandAccess.Within (n max : Nat) : ExpandAccess → Prop
  | .readSrc i => i ≤ n
  | .writeDst i => i < max

/-- `expand_vars` of a line of `n` characters returns, stays in its two arrays and leaves a string
of the length it returns. -/
def ExpandsWithin (e : Environment) (src dst : Mem) (max n : Nat) : Prop :=
  ∃ o log, (∀ fuel, n < fuel →
      expandVars fuel e src dst max = some o ∧ expandVarsLog e max fuel src dst = some (o, log)) ∧
    (∀ a ∈ log, a.Within n max) ∧ ∃ text, TextAt o.dst 0 text ∧ text.length = o.di

theorem ExpandAccess.Within.mono (h : ExpandAccess.Within n m a) (hn : n ≤ n') :
    a.Within n' m := by
  cases a with
  | readSrc i => exact Nat.le_trans h hn
  | writeDst i => exact h

theorem readNameLog_within (h : TextAt src i l) (accept : UInt8 → Bool) (left m : Nat) :
    ∀ a ∈ readNameLog src accept left i, a.Within (i + l.length) m := by
  have hfirst : ∀ a ∈ [ExpandAccess.readSrc i], a.Within (i + l.length) m := by
    intro a ha
    rw [List.mem_singleton.1 ha]
    exact Nat.le_add_right i l.length
  induction left generalizing i l with
  | zero => exact hfirst
  | succ left ih =>
    rw [readNameLog]
    split
    · next hgo =>
      cases l with
      | nil => exact (hgo.1 h).elim
      | cons b l =>
        have hrest := ih h.2.2 fun a ha => by
          rw [List.mem_singleton.1 ha]
          exact Nat.le_add_right _ _
        intro a ha
        rcases List.mem_cons.1 ha with rfl | ha
        · exact Nat.le_add_right _ _
        · refine (hrest a ha).mono ?_
          rw [List.length_cons]
          omega
    · exact hfirst

/-- A round reads no byte behind the NUL. -/
theorem expandRoundLog_within (h : TextAt src i (c :: l)) (m : Nat) :
    ∀ a ∈ expandRoundLog src i, a.Within (i + (c :: l).length) m := by
  have hfirst : (ExpandAccess.readSrc i).Within (i + (c :: l).length) m := Nat.le_add_right _ _
  have hname : ∀ accept, ∀ a ∈ readNameLog src accept 63 (i + 1),
      a.Within (i + (c :: l).length) m := by
    intro accept a ha
    refine (readNameLog_within h.2.2 accept 63 m a ha).mono ?_
    rw [List.length_cons]
    omega
  rw [expandRoundLog]
  split
  · split
    · next hb =>
      cases l with
      | nil =>
        have h₀ : src (i + 1) = 0 := h.2.2
        rw [h₀] at hb
        exact absurd hb (by decide)
      | cons d l =>
        intro a ha
        rcases List.mem_cons.1 ha with rfl | ha
        · exact hfirst
        rcases List.mem_cons.1 ha with rfl | ha
        · have hlen : i + 1 ≤ i + (c :: d :: l).length := by
            rw [List.length_cons]
            omega
          exact hlen
        · refine (readNameLog_within h.2.2.2.2 _ 63 m a ha).mono ?_
          rw [List.length_cons, List.length_cons]
          omega
    · intro a ha
      rcases List.mem_cons.1 ha with rfl | ha
      · exact hfirst
      · exact hname _ a ha
  · intro a ha
    rw [List.mem_singleton.1 ha]
    exact hfirst

theorem TextAt.getElem? (h : TextAt src i l) (hn : n ≤ l.length) :
    l[n]? = some b ↔ src (i + n) = b ∧ b ≠ 0 := by
  have hdrop := h.drop n hn
  cases hl : l.drop n with
  | nil =>
    rw [hl] at hdrop
    have h₀ : src (i + n) = 0 := hdrop
    rw [List.getElem?_eq_none (List.drop_eq_nil_iff.1 hl), h₀]
    exact iff_of_false (by simp) fun hb => hb.2 hb.1.symm
  | cons d l' =>
    rw [hl] at hdrop
    have hd : l[n]? = some d := by
      rw [← List.head?_drop, hl]
      rfl
    rw [hd, hdrop.1, Option.some.injEq]
    refine (and_iff_left_of_imp fun hb => ?_).symm
    rw [← hb]
    exact hdrop.2.1

theorem roundLength_plain (hc : c ≠ charDollar) (l : List UInt8) : roundLength (c :: l) = 1 := by
  cases l <;> exact if_neg hc

theorem roundPieces_plain (hc : c ≠ charDollar) (l : List UInt8) :
    roundPieces (c :: l) = [.copied c] := by
  cases l <;> exact if_neg hc

/-- A round of the loop, read off the line. -/
theorem expandRound_line (h : TextAt src i (c :: l)) :
    (expandRound src i).2 + 1 = i + roundLength (c :: l) ∧
      (expandRound src i).1.map Prod.snd = roundPieces (c :: l) := by
  by_cases hc : c = charDollar
  · subst hc
    cases l with
    | nil =>
      have h₀ : src (i + 1) = 0 := h.2.2
      rw [expandRound_dollar h (by decide) rfl, if_neg (not_not.2 h₀)]
      exact ⟨rfl, rfl⟩
    | cons d l =>
      by_cases hd : d = charOpenBrace
      · subst hd
        have hle : ((l.takeWhile (· ≠ charCloseBrace)).take 63).length ≤ l.length :=
          (List.length_take_le' _ _).trans (List.takeWhile_prefix _).length_le
        have hclose := TextAt.getElem? (b := charCloseBrace) h.2.2.2.2 hle
        rw [expandRound_braces h, roundLength, if_pos rfl, roundPieces, if_pos rfl]
        dsimp only
        rw [if_pos rfl, if_pos rfl]
        refine ⟨?_, rfl⟩
        split
        · next hb =>
          rw [if_pos (hclose.2 ⟨hb, by decide⟩)]
          omega
        · next hb =>
          rw [if_neg fun hs => hb (hclose.1 hs).1]
          omega
      · rw [roundLength, if_pos rfl, roundPieces, if_pos rfl]
        dsimp only
        rw [if_neg hd, if_neg hd]
        by_cases hn : ((d :: l).takeWhile inBareName).take 63 = []
        · have hne : src (i + 1) ≠ 0 := by
            rw [h.2.2.1]
            exact h.2.2.2.1
          rw [expandRound_dollar h (fun hb => hd (Option.some.inj hb)) hn, if_pos hn, if_pos hn,
            if_pos hne, h.2.2.1]
          exact ⟨rfl, rfl⟩
        · rw [expandRound_bare h hd rfl hn, if_neg hn, if_neg hn]
          exact ⟨Nat.add_assoc _ _ _, rfl⟩
  · have hsrc : src i ≠ charDollar := by
      rw [h.1]
      exact hc
    rw [expandRound, if_neg hsrc, roundLength_plain hc, roundPieces_plain hc, h.1]
    exact ⟨rfl, rfl⟩

/-- No NUL has been written. -/
def Expansion.Solid (o : Expansion) : Prop := ∀ k, k < o.di → o.dst k ≠ 0

theorem Expansion.Solid.put {o : Expansion} (h : o.Solid) (hc : c ≠ 0) : (o.put c).Solid := by
  intro k hk
  change Function.update o.dst o.di c k ≠ 0
  rcases Nat.lt_succ_iff_lt_or_eq.1 hk with hk | rfl
  · rw [Function.update_of_ne (Nat.ne_of_lt hk)]
    exact h k hk
  · rw [Function.update_self]
    exact hc

/-- The output grows by some bytes, and nothing behind them is written. -/
structure Expansion.Grows (o : Expansion) (n : Nat) (r : Expansion × List ExpandAccess) : Prop where
  di : r.1.di = o.di + n
  writes : ∀ a ∈ r.2, ∃ j, j < r.1.di ∧ a = .writeDst j

theorem Expansion.Grows.trans {o : Expansion} (h : o.Grows n r) (h' : r.1.Grows n' r') :
    o.Grows (n + n') (r'.1, r.2 ++ r'.2) := by
  have hdi := h.di
  have hdi' := h'.di
  refine ⟨by dsimp only; omega, fun a ha => ?_⟩
  rcases List.mem_append.1 ha with ha | ha
  · obtain ⟨j, hj, rfl⟩ := h.writes a ha
    exact ⟨j, by dsimp only; omega, rfl⟩
  · exact h'.writes a ha

theorem copyValueLog_grows (val : Nat → UInt8) (left v : Nat) (o : Expansion) :
    o.Grows ((bytesAt val v left).takeWhile (· ≠ 0)).length (copyValueLog val left v o) := by
  induction left generalizing v o with
  | zero => exact ⟨rfl, fun a ha => by cases ha⟩
  | succ left ih =>
    rw [copyValueLog, bytesAt]
    split
    · next hv =>
      have hput : o.Grows 1 (o.put (val v), [.writeDst o.di]) := by
        refine ⟨rfl, fun a ha => ⟨o.di, Nat.lt_succ_self _, List.mem_singleton.1 ha⟩⟩
      rw [List.takeWhile_cons_of_pos (by simpa using hv), List.length_cons, Nat.add_comm]
      exact hput.trans (ih (v + 1) (o.put (val v)))
    · next hv =>
      rw [List.takeWhile_cons_of_neg (by simpa using hv)]
      exact ⟨rfl, fun a ha => by cases ha⟩

theorem copyValueLog_solid {o : Expansion} (h : o.Solid) (val : Nat → UInt8) (left v : Nat) :
    (copyValueLog val left v o).1.Solid := by
  induction left generalizing v o with
  | zero => exact h
  | succ left ih =>
    rw [copyValueLog]
    split
    · next hv => exact ih (h.put hv) (v + 1)
    · exact h

section
variable (e : Environment) (max : Nat)

theorem writePieceLog_grows {o : Expansion} (hroom : room = max - 1 - o.di) (p : Piece) :
    o.Grows (p.size e room) (writePieceLog e max o p) := by
  subst hroom
  cases p with
  | copied c => exact ⟨rfl, fun a ha => ⟨o.di, Nat.lt_succ_self _, List.mem_singleton.1 ha⟩⟩
  | expanded name => exact copyValueLog_grows _ _ _ _

theorem writePieceLog_solid {o : Expansion} (h : o.Solid) (hp : p ≠ .copied 0) :
    (writePieceLog e max o p).1.Solid := by
  cases p with
  | copied c => exact h.put fun hc => hp (congrArg Piece.copied hc)
  | expanded name => exact copyValueLog_solid h _ _ _

theorem writePiecesLog_solid {o : Expansion} (h : o.Solid) (hl : .copied 0 ∉ l) :
    (writePiecesLog e max o l).1.Solid := by
  induction l generalizing o with
  | nil => exact h
  | cons p l ih =>
    have hp := writePieceLog_solid e max h (List.ne_of_not_mem_cons hl).symm
    exact ih hp (List.not_mem_of_not_mem_cons hl)

theorem writePiecesLog_grows (o : Expansion) (l : List Piece) :
    ∃ n, o.Grows n (writePiecesLog e max o l) := by
  induction l generalizing o with
  | nil => exact ⟨0, rfl, fun a ha => by cases ha⟩
  | cons p l ih =>
    have hp := writePieceLog_grows e max (o := o) rfl p
    obtain ⟨n, hn⟩ := ih (writePieceLog e max o p).1
    exact ⟨_, hp.trans hn⟩

variable {e : Environment} {max room : Nat} {o : Expansion}

/-- Where the pieces fit, the room behind them is what is left. -/
theorem writePiecesLog_room (h : o.di + room = max - 1) (hfit : PiecesFit e room l) :
    (writePiecesLog e max o l).1.di + roomBehind e room l = max - 1 := by
  induction l generalizing o room with
  | nil => exact h
  | cons p l ih =>
    have hp : o.Grows (p.size e room) (writePieceLog e max o p) :=
      writePieceLog_grows e max (by omega) p
    have hdi := hp.di
    obtain ⟨hle, hrest⟩ := hfit
    exact ih (by omega) hrest

/-- Where they do not, the output outgrows the buffer. -/
theorem writePiecesLog_outgrows (h : o.di + room = max - 1) (hfit : ¬ PiecesFit e room l) :
    max - 1 < (writePiecesLog e max o l).1.di := by
  induction l generalizing o room with
  | nil => exact (hfit trivial).elim
  | cons p l ih =>
    have hp : o.Grows (p.size e room) (writePieceLog e max o p) :=
      writePieceLog_grows e max (by omega) p
    have hdi := hp.di
    by_cases hle : p.size e room ≤ room
    · exact ih (by omega) fun hrest => hfit ⟨hle, hrest⟩
    · obtain ⟨n, hn⟩ := writePiecesLog_grows e max (writePieceLog e max o p).1 l
      have hdi' := hn.di
      change max - 1 < (writePiecesLog e max (writePieceLog e max o p).1 l).1.di
      omega

theorem expandLoopLog_di_le (h : expandLoopLog e max src fuel i o = some r) : o.di ≤ r.1.di := by
  induction fuel generalizing i o r with
  | zero => cases h
  | succ fuel ih =>
    rw [expandLoopLog] at h
    split at h
    · obtain ⟨q, hq, rfl⟩ := logged_some h
      obtain ⟨n, hn⟩ := writePiecesLog_grows e max o
        ((expandRound src i).1.map Prod.snd)
      have hdi := hn.di
      have := ih hq
      change o.di ≤ q.1.di
      omega
    · cases h
      exact Nat.le_refl _

/-- Wherever the loop stands, it reads the line there. -/
theorem expandLoopLog_reads (h : expandLoopLog e max src fuel i o = some r) :
    .readSrc i ∈ r.2 := by
  cases fuel with
  | zero => cases h
  | succ fuel =>
    rw [expandLoopLog] at h
    split at h
    · obtain ⟨q, hq, rfl⟩ := logged_some h
      refine List.mem_append_left _ (List.mem_append_left _ ?_)
      unfold expandRoundLog
      split
      · split
        · exact List.mem_cons_self
        · exact List.mem_cons_self
      · exact List.mem_cons_self
    · cases h
      exact List.mem_cons_self

theorem roundLength_pos (c : UInt8) (l : List UInt8) : 0 < roundLength (c :: l) := by
  by_cases hc : c = charDollar
  · subst hc
    cases l with
    | nil => exact Nat.two_pos
    | cons d l =>
      rw [roundLength, if_pos rfl]
      split
      · dsimp only
        split <;> omega
      · split <;> omega
  · exact (roundLength_plain hc l).symm ▸ Nat.one_pos

theorem roundPieces_no_nul (h : TextAt src i (c :: l)) : .copied 0 ∉ roundPieces (c :: l) := by
  by_cases hc : c = charDollar
  · subst hc
    have hdollar : (0 : UInt8) ≠ charDollar := by decide
    cases l with
    | nil =>
      intro hmem
      exact hdollar (Piece.copied.inj (List.mem_singleton.1 hmem))
    | cons d l =>
      rw [roundPieces, if_pos rfl]
      intro hmem
      split at hmem
      · cases List.mem_singleton.1 hmem
      · split at hmem
        · rcases List.mem_cons.1 hmem with heq | hmem
          · exact hdollar (Piece.copied.inj heq)
          · exact h.2.2.2.1 (Piece.copied.inj (List.mem_singleton.1 hmem)).symm
        · cases List.mem_singleton.1 hmem
  · rw [roundPieces_plain hc]
    intro hmem
    exact h.2.1 (Piece.copied.inj (List.mem_singleton.1 hmem)).symm

theorem roundsStay_skip (n room : Nat) (l : List UInt8) :
    RoundsStay e n room l ↔ RoundsStay e 0 room (l.drop n) := by
  induction n generalizing l with
  | zero => exact Iff.rfl
  | succ n ih =>
    cases l with
    | nil => exact Iff.rfl
    | cons b l => exact ih l

theorem roundsStay_cons (hroom : room ≠ 0) :
    RoundsStay e 0 room (c :: l) ↔
      roundLength (c :: l) ≤ (c :: l).length ∧ PiecesFit e room (roundPieces (c :: l)) ∧
        RoundsStay e 0 (roomBehind e room (roundPieces (c :: l)))
          ((c :: l).drop (roundLength (c :: l))) := by
  have hdrop : (c :: l).drop (roundLength (c :: l)) = l.drop (roundLength (c :: l) - 1) := by
    have hpos := roundLength_pos c l
    obtain ⟨n, hn⟩ : ∃ n, roundLength (c :: l) = n + 1 := ⟨_, (Nat.sub_add_cancel hpos).symm⟩
    rw [hn]
    rfl
  rw [hdrop, ← roundsStay_skip, RoundsStay, or_iff_right hroom]

/-- One round of the loop, read off the line. -/
theorem expandLoopLog_round (h : TextAt src i (c :: l)) (hroom : o.di + room = max - 1)
    (hpos : room ≠ 0) (fuel : Nat) :
    expandLoopLog e max src (fuel + 1) i o =
      logged (expandRoundLog src i ++ (writePiecesLog e max o (roundPieces (c :: l))).2)
        (expandLoopLog e max src fuel (i + roundLength (c :: l))
          (writePiecesLog e max o (roundPieces (c :: l))).1) := by
  have hgo : src i ≠ 0 ∧ o.di < max - 1 := by
    refine ⟨?_, by omega⟩
    rw [h.1]
    exact h.2.1
  obtain ⟨hnext, hpieces⟩ := expandRound_line h
  rw [expandLoopLog, if_pos hgo, hnext, hpieces]

/-- A line whose rounds stay is expanded within bounds. -/
theorem expandLoopLog_ends (h : TextAt src i l) (hs : RoundsStay e 0 room l)
    (hroom : o.di + room = max - 1) (hmax : 1 ≤ max) (ho : o.Solid) :
    Ends (fun fuel => expandLoopLog e max src fuel i o) (l.length + 1) fun r =>
      (∀ a ∈ r.2, a.Within (i + l.length) max) ∧ r.1.di < max ∧ r.1.Solid := by
  induction hd : l.length using Nat.strongRecOn generalizing i l room o with
  | ind d ih =>
    subst hd
    have hstop : ¬ (src i ≠ 0 ∧ o.di < max - 1) → Ends
        (fun fuel => expandLoopLog e max src fuel i o) (l.length + 1) fun r =>
          (∀ a ∈ r.2, a.Within (i + l.length) max) ∧ r.1.di < max ∧ r.1.Solid := by
      intro hgo
      refine Ends.stop (r := (o, [.readSrc i])) (fun fuel => if_neg hgo) ⟨?_, ?_, ho⟩ _
      · intro a ha
        rw [List.mem_singleton.1 ha]
        exact Nat.le_add_right _ _
      · dsimp only
        omega
    cases l with
    | nil => exact hstop fun hgo => hgo.1 h
    | cons c l =>
      by_cases hpos : room = 0
      · exact hstop fun hgo => by omega
      · obtain ⟨hlen, hfit, hrest⟩ := (roundsStay_cons hpos).1 hs
        have hone := roundLength_pos c l
        have hnext := h.drop (roundLength (c :: l)) hlen
        have hroom' := writePiecesLog_room hroom hfit
        have hsolid := writePiecesLog_solid e max ho (roundPieces_no_nul h)
        have hdrop : ((c :: l).drop (roundLength (c :: l))).length =
            (c :: l).length - roundLength (c :: l) := List.length_drop
        have hends := ih _ (by omega) hnext hrest hroom' hsolid rfl
        refine hends.round (by omega) (fun fuel _ => expandLoopLog_round h hroom hpos fuel)
          fun r hr => ⟨?_, hr.2⟩
        obtain ⟨n, hn⟩ := writePiecesLog_grows e max o (roundPieces (c :: l))
        intro a ha
        rcases List.mem_append.1 ha with ha | ha
        · rcases List.mem_append.1 ha with ha | ha
          · exact expandRoundLog_within h max a ha
          · obtain ⟨j, hj, rfl⟩ := hn.writes a ha
            have hlt : j < max := by omega
            exact hlt
        · refine (hr.1 a ha).mono ?_
          omega

/-- A line with a round that does not stay leads out of `src` or `dst`. -/
theorem expandLoopLog_leaves (h : TextAt src i l) (hs : ¬ RoundsStay e 0 room l)
    (hroom : o.di + room = max - 1) (hrun : expandLoopLog e max src fuel i o = some r) :
    (∃ a ∈ r.2, ¬ a.Within (i + l.length) max) ∨ max - 1 < r.1.di := by
  induction fuel generalizing i l room o r with
  | zero => cases hrun
  | succ fuel ih =>
    cases l with
    | nil => exact (hs trivial).elim
    | cons c l =>
      have hpos : room ≠ 0 := fun hz => hs (.inl hz)
      rw [expandLoopLog_round h hroom hpos] at hrun
      obtain ⟨q, hq, rfl⟩ := logged_some hrun
      by_cases hfit : PiecesFit e room (roundPieces (c :: l))
      · by_cases hlen : roundLength (c :: l) ≤ (c :: l).length
        · have hnot := fun hrest => hs ((roundsStay_cons hpos).2 ⟨hlen, hfit, hrest⟩)
          have hnext := h.drop (roundLength (c :: l)) hlen
          have hsum : i + roundLength (c :: l) + ((c :: l).drop (roundLength (c :: l))).length =
              i + (c :: l).length := by
            rw [List.length_drop]
            omega
          have hrest := ih hnext hnot (writePiecesLog_room hroom hfit) hq
          rw [hsum] at hrest
          refine hrest.imp_left ?_
          rintro ⟨a, ha, hout⟩
          exact ⟨a, List.mem_append_right _ ha, hout⟩
        · -- the loop goes on behind the NUL
          refine .inl ⟨_, List.mem_append_right _ (expandLoopLog_reads hq), ?_⟩
          change ¬ i + roundLength (c :: l) ≤ i + (c :: l).length
          omega
      · have hout := writePiecesLog_outgrows hroom hfit
        have hle := expandLoopLog_di_le hq
        exact .inr (Nat.lt_of_lt_of_le hout hle)

end

theorem textAt_bytesAt (h : ∀ k, k < n → m (a + k) ≠ 0) (hn : m (a + n) = 0) :
    TextAt m a (bytesAt m a n) := by
  induction n generalizing a with
  | zero => exact hn
  | succ n ih =>
    have hsum : ∀ k, a + 1 + k = a + (k + 1) := fun k => by omega
    refine ⟨rfl, h 0 (Nat.succ_pos n), ih (fun k hk => ?_) ?_⟩
    · rw [hsum]
      exact h (k + 1) (Nat.succ_lt_succ hk)
    · rwa [hsum]

/-- `expand_vars` stays in its arrays and leaves a string of the length it returns exactly when
every round of the line that has room to write stays. -/
theorem expandVars_in_bounds_iff (e : Environment) (src dst : Mem) (max : Nat)
    (line : List UInt8) (h : TextAt src 0 line) (hmax : 1 ≤ max) :
    ExpandsWithin e src dst max line.length ↔ RoundsStay e 0 (max - 1) line := by
  constructor
  · rintro ⟨o, log, hrun, hwithin, -⟩
    by_contra hs
    have hlog := (hrun (line.length + 1) (Nat.lt_succ_self _)).2
    rw [expandVarsLog, Option.map_eq_some_iff] at hlog
    obtain ⟨r, hr, heq⟩ := hlog
    obtain ⟨-, rfl⟩ := Prod.mk.inj heq
    rcases expandLoopLog_leaves h hs (Nat.zero_add _) hr with ⟨a, ha, hout⟩ | hout
    · rw [Nat.zero_add] at hout
      exact hout (hwithin a (List.mem_append_left _ ha))
    · have hlast : r.1.di < max :=
        hwithin (.writeDst r.1.di) (List.mem_append_right _ List.mem_cons_self)
      omega
  · intro hs
    obtain ⟨r, hr, hwithin, hdi, hsolid⟩ := expandLoopLog_ends (o := ⟨dst, 0⟩) h hs
      (Nat.zero_add _) hmax fun k hk => absurd hk (Nat.not_lt_zero k)
    dsimp only at hr
    rw [Nat.zero_add] at hwithin
    refine ⟨{ r.1 with dst := Function.update r.1.dst r.1.di 0 }, r.2 ++ [.writeDst r.1.di],
      fun fuel hf => ?_, fun a ha => ?_, bytesAt (Function.update r.1.dst r.1.di 0) 0 r.1.di, ?_,
      length_bytesAt _ _ _⟩
    · have hlog : expandVarsLog e max fuel src dst =
          some ({ r.1 with dst := Function.update r.1.dst r.1.di 0 },
            r.2 ++ [.writeDst r.1.di]) := by
        rw [expandVarsLog, hr fuel hf]
        rfl
      refine ⟨?_, hlog⟩
      rw [← expandVarsLog_fst, hlog]
      rfl
    · rcases List.mem_append.1 ha with ha | ha
      · exact hwithin a ha
      · rw [List.mem_singleton.1 ha]
        exact hdi
    · dsimp only
      refine textAt_bytesAt (fun k hk => ?_) ?_
      · rw [Nat.zero_add, Function.update_of_ne (Nat.ne_of_lt hk)]
        exact hsolid k hk
      · rw [Nat.zero_add, Function.update_self]

/-- `a$`: the loop goes on behind the NUL. -/
theorem expandVars_reads_behind_nul :
    TextAt (fun i => [0x61, 0x24].getD i 0) 0 [0x61, 0x24] ∧
      ¬ ExpandsWithin (.empty 0) (fun i => [0x61, 0x24].getD i 0) (fun _ => 0) 256 2 := by
  refine ⟨⟨rfl, by decide, rfl, by decide, rfl⟩, ?_⟩
  rintro ⟨o, log, hrun, hwithin, -⟩
  have hlog := (hrun 3 (by decide)).2
  have hmem : (expandVarsLog (.empty 0) 256 3 (fun i => [0x61, 0x24].getD i 0)
      fun _ => 0).map (fun r => decide (.readSrc 3 ∈ r.2)) = some true := by decide
  rw [hlog] at hmem
  have hread := hwithin (.readSrc 3) (of_decide_eq_true (Option.some.inj hmem))
  exact absurd hread (by decide : ¬ 3 ≤ 2)

theorem expandVars_in_bounds_iff_plain :
    ExpandsWithin (.empty 0) (fun i => [0x24, 0x41, 0x2B].getD i 0) (fun _ => 0) 256 3 :=
  (expandVars_in_bounds_iff (.empty 0) (fun i => [0x24, 0x41, 0x2B].getD i 0) (fun _ => 0)
    256 [0x24, 0x41, 0x2B] ⟨rfl, by decide, rfl, by decide, rfl, by decide, rfl⟩ (by decide)).2
    (by decide)

end KernelCustom
