import KernelCustom.Environment

namespace KernelCustom
open ByteStore CString BoundedMap
set_option autoImplicit true

def charDollar : UInt8 := 0x24
def charOpenBrace : UInt8 := 0x7B
def charCloseBrace : UInt8 := 0x7D
def charUnderscore : UInt8 := 0x5F

/-- `'a'..'z'`, `'A'..'Z'`, `'0'..'9'` and `'_'`. -/
def isNameChar (c : UInt8) : Bool :=
  (0x61 ≤ c ∧ c ≤ 0x7A) ∨ (0x41 ≤ c ∧ c ≤ 0x5A) ∨ (0x30 ≤ c ∧ c ≤ 0x39) ∨ c = charUnderscore

/-- The characters that the loop over a name without braces takes. -/
def inBareName (c : UInt8) : Bool := isNameChar c ∨ c = charQuestion ∨ c = charDollar

/-- The loops that fill `char name[64]`, for the rounds that `ni < 63` leaves. -/
def readName (src : Mem) (accept : UInt8 → Bool) : Nat → Nat → List UInt8
  | 0, _ => []
  | left + 1, si =>
    if src si ≠ 0 ∧ accept (src si) then src si :: readName src accept left (si + 1) else []

inductive Piece where
  | copied (c : UInt8)
  | expanded (name : List UInt8)
  deriving DecidableEq

/-- What one round of the loop of `expand_vars` writes, by the index in the line it comes from,
and `si` behind the round's body. -/
def expandRound (src : Mem) (si : Nat) : List (Nat × Piece) × Nat :=
  if src si = charDollar then
    if src (si + 1) = charOpenBrace then
      let name := readName src (· ≠ charCloseBrace) 63 (si + 2)
      let si' := si + 2 + name.length
      ([(si, .expanded name)], if src si' = charCloseBrace then si' + 1 else si')
    else
      let name := readName src inBareName 63 (si + 1)
      let si' := si + 1 + name.length
      if name.length = 0 then
        ((si, .copied charDollar) :: if src si' ≠ 0 then [(si', .copied (src si'))] else [], si')
      else ([(si, .expanded name)], si' - 1)
  else ([(si, .copied (src si))], si)

/-- `dst` and `di`. -/
structure Expansion where
  dst : Mem
  di : Nat

def Expansion.put (o : Expansion) (c : UInt8) : Expansion :=
  ⟨Function.update o.dst o.di c, o.di + 1⟩

/-- `for (int v = 0; val[v] && di < max - 1; v++) dst[di++] = val[v]`, for the rounds that `di`
leaves. -/
def copyValue (val : Nat → UInt8) : Nat → Nat → Expansion → Expansion
  | 0, _, o => o
  | left + 1, v, o => if val v ≠ 0 then copyValue val left (v + 1) (o.put (val v)) else o

def writePiece (e : Environment) (max : Nat) (o : Expansion) : Piece → Expansion
  | .copied c => o.put c
  | .expanded name => copyValue (e.envGet (Text.ofBytes name)) (max - 1 - o.di) 0 o

def expandLoop (e : Environment) (src : Mem) (max : Nat) : Nat → Nat → Expansion → Option Expansion
  | 0, _, _ => none
  | fuel + 1, si, o =>
    if src si ≠ 0 ∧ o.di < max - 1 then
      expandLoop e src max fuel ((expandRound src si).2 + 1)
        ((expandRound src si).1.foldl (fun o p => writePiece e max o p.2) o)
    else some o

/-- `expand_vars`, with a bound on the rounds of its loop; `none` when it does not do. -/
def expandVars (fuel : Nat) (e : Environment) (src dst : Mem) (max : Nat) : Option Expansion :=
  (expandLoop e src max fuel 0 ⟨dst, 0⟩).map fun o =>
    { o with dst := Function.update o.dst o.di 0 }

/-- The pieces of a whole line, as the loop would write them into a buffer without an end. -/
def scanPieces (src : Mem) : Nat → Nat → Option (List (Nat × Piece))
  | 0, _ => none
  | fuel + 1, si =>
    if src si ≠ 0 then
      (scanPieces src fuel ((expandRound src si).2 + 1)).map ((expandRound src si).1 ++ ·)
    else some []

/-- The variable that a `$` in front of some text names, and how much of the text that takes. -/
def reference : List UInt8 → Option (List UInt8 × Nat)
  | [] => none
  | c :: l =>
    if c = charOpenBrace then
      let name := l.takeWhile (· ≠ charCloseBrace)
      if name.length ≤ 63 ∧ name.length < l.length then some (name, name.length + 2) else none
    else if c = charQuestion then some ([c], 1)
    else
      let name := (c :: l).takeWhile isNameChar
      if name = [] then none else some (name, name.length)

/-- The pieces of a line from an index on, behind what an expansion has taken. -/
def pieces : Nat → Nat → List UInt8 → List (Nat × Piece)
  | _, _, [] => []
  | i, skip + 1, _ :: l => pieces (i + 1) skip l
  | i, 0, c :: l =>
    if c = charDollar then
      match reference l with
      | some (name, n) => (i, .expanded name) :: pieces (i + 1) n l
      | none => (i, .copied c) :: pieces (i + 1) 0 l
    else (i, .copied c) :: pieces (i + 1) 0 l

/-- The string that a name has in an environment. -/
def Environment.value (e : Environment) (name : List UInt8) : List UInt8 :=
  (Text.ofBytes (bytesAt (e.envGet (Text.ofBytes name)) 0 envValMax)).chars

def Piece.text (e : Environment) : Piece → List UInt8
  | .copied c => [c]
  | .expanded name => e.value name

/-- A line with its variables replaced. -/
def expansion (e : Environment) (line : List UInt8) : List UInt8 :=
  (pieces 0 0 line).flatMap fun p => p.2.text e

/-- Every row of the environment is a string. -/
def Environment.Terminated (e : Environment) : Prop :=
  ∀ i, i < e.envCount → 0 ∈ bytesAt e.envVars (envValMax * i) envValMax

theorem exists_textAt (h : m (a + n) = 0) : ∃ l, TextAt m a l ∧ l.length ≤ n := by
  induction n generalizing a with
  | zero => exact ⟨[], h, Nat.le_refl 0⟩
  | succ n ih =>
    by_cases h₀ : m a = 0
    · exact ⟨[], h₀, Nat.zero_le _⟩
    · rw [Nat.add_comm n, ← Nat.add_assoc] at h
      obtain ⟨l, hl, hn⟩ := ih h
      exact ⟨m a :: l, ⟨rfl, h₀, hl⟩, Nat.succ_le_succ hn⟩

theorem mem_bytesAt (h : b ∈ bytesAt m a n) : ∃ k, k < n ∧ m (a + k) = b := by
  induction n generalizing a with
  | zero => cases h
  | succ n ih =>
    rcases List.mem_cons.1 h with h | h
    · exact ⟨0, Nat.zero_lt_succ n, h.symm⟩
    · obtain ⟨k, hk, hb⟩ := ih h
      refine ⟨k + 1, Nat.succ_lt_succ hk, ?_⟩
      rwa [Nat.add_comm k, ← Nat.add_assoc]

/-- The comparison passes over no NUL. -/
theorem matchName_ne_zero (hj : ∀ k, k < j → row k ≠ 0)
    (hk : k < matchName row name left j) : row k ≠ 0 := by
  induction left generalizing j with
  | zero => exact hj k hk
  | succ left ih =>
    rw [matchName] at hk
    split at hk
    · next hrow =>
      split at hk
      · exact hj k hk
      · refine ih (fun k' hk' => ?_) hk
        rcases Nat.lt_succ_iff_lt_or_eq.1 hk' with h | rfl
        · exact hj k' h
        · exact hrow.1
    · exact hj k hk

/-- Where every row is a string, `env_get` returns one. -/
theorem Environment.Terminated.envGet {e : Environment} (h : e.Terminated) (name : List UInt8) :
    TextAt (e.envGet (Text.ofBytes name)) 0 (e.value name) := by
  suffices hnul : ∃ n, n < envValMax ∧ e.envGet (Text.ofBytes name) n = 0 by
    obtain ⟨n, hn, hz⟩ := hnul
    rw [← Nat.zero_add n] at hz
    obtain ⟨l, hl, hle⟩ := exists_textAt hz
    have hvalue : e.value name = l := hl.takeWhile (Nat.lt_of_le_of_lt hle hn)
    rwa [hvalue]
  unfold Environment.envGet
  cases hf : e.findRow (Text.ofBytes name) with
  | some i =>
    have hi := List.mem_range.1 (List.mem_of_find?_eq_some hf)
    have hmatch := List.find?_some hf
    rw [rowMatches, decide_eq_true_eq] at hmatch
    obtain ⟨k, hk, hz⟩ := mem_bytesAt (h i hi)
    have hpast : strlen (Text.ofBytes name) < k := by
      by_contra hle
      rcases Nat.lt_or_eq_of_le (Nat.not_lt.1 hle) with hlt | rfl
      · have hne : e.rowByte i k ≠ 0 :=
          matchName_ne_zero (fun k hk => absurd hk (Nat.not_lt_zero k))
            (hlt.trans_eq hmatch.1.symm)
        exact hne hz
      · have heq := hmatch.2
        rw [hmatch.1] at heq
        exact absurd (heq.symm.trans hz) (by decide)
    refine ⟨k - (strlen (Text.ofBytes name) + 1), by omega, ?_⟩
    change e.rowByte i _ = 0
    rw [Nat.add_sub_of_le hpast]
    exact hz
  | none =>
    change ∃ n, n < envValMax ∧
      (if strcmp (Text.ofBytes name) questionMark = 0 then statusDigits e.lastExitStatus
        else fun _ => 0) n = 0
    split
    · exact ⟨3, by decide, rfl⟩
    · exact ⟨0, by decide, rfl⟩

theorem putBytes_append (m : Mem) (a : Nat) (l l' : List UInt8) :
    putBytes m a (l ++ l') = putBytes (putBytes m a l) (a + l.length) l' := by
  induction l generalizing m a with
  | nil => rfl
  | cons b l ih =>
    rw [List.cons_append, putBytes, putBytes, ih, List.length_cons, Nat.add_assoc,
      Nat.add_comm 1]

def Expansion.putAll (o : Expansion) (l : List UInt8) : Expansion :=
  ⟨putBytes o.dst o.di l, o.di + l.length⟩

@[simp] theorem Expansion.putAll_di (o : Expansion) (l : List UInt8) :
    (o.putAll l).di = o.di + l.length := rfl

theorem Expansion.putAll_append (o : Expansion) (l l' : List UInt8) :
    o.putAll (l ++ l') = (o.putAll l).putAll l' := by
  rw [putAll, putAll, putAll, putBytes_append, List.length_append, Nat.add_assoc]

theorem copyValue_eq (h : TextAt val v l) (hl : l.length ≤ left) (o : Expansion) :
    copyValue val left v o = o.putAll l := by
  induction left generalizing v l o with
  | zero =>
    rw [List.eq_nil_of_length_eq_zero (Nat.le_zero.1 hl)]
    rfl
  | succ left ih =>
    rw [copyValue]
    cases l with
    | nil =>
      have h₀ : val v = 0 := h
      rw [if_neg (not_not.2 h₀)]
      rfl
    | cons b l =>
      obtain ⟨hb, hb₀, hrest⟩ := h
      rw [hb, if_pos hb₀, ih hrest (Nat.le_of_succ_le_succ hl), Expansion.putAll,
        Expansion.putAll, List.length_cons,
        Nat.add_comm l.length, ← Nat.add_assoc]
      rfl

section
variable {max : Nat}

theorem writePiece_eq {e : Environment} (he : e.Terminated) (p : Piece)
    (hroom : o.di + (p.text e).length ≤ max - 1) : writePiece e max o p = o.putAll (p.text e) := by
  cases p with
  | copied c => rfl
  | expanded name =>
    refine copyValue_eq (he.envGet name) ?_ o
    have hlength : (e.value name).length = ((Piece.expanded name).text e).length := rfl
    omega

theorem writePieces_eq {e : Environment} (he : e.Terminated) (l : List (Nat × Piece))
    (hroom : o.di + (l.flatMap fun p => p.2.text e).length ≤ max - 1) :
    l.foldl (fun o p => writePiece e max o p.2) o = o.putAll (l.flatMap fun p => p.2.text e) := by
  induction l generalizing o with
  | nil => rfl
  | cons p l ih =>
    rw [List.flatMap_cons, List.length_append] at hroom
    rw [List.foldl_cons, writePiece_eq he p.2 (by omega), ih, ← Expansion.putAll_append,
      List.flatMap_cons]
    rw [Expansion.putAll_di]
    omega

/-- With room for the text of the pieces, the loop writes just that. -/
theorem expandLoop_eq {e : Environment} (he : e.Terminated)
    (hscan : scanPieces src fuel si = some l)
    (hroom : o.di + (l.flatMap fun p => p.2.text e).length ≤ max - 1) :
    expandLoop e src max fuel si o = some (o.putAll (l.flatMap fun p => p.2.text e)) := by
  induction fuel generalizing si l o with
  | zero => cases hscan
  | succ fuel ih =>
    rw [scanPieces] at hscan
    rw [expandLoop]
    split at hscan
    · next hsi =>
      obtain ⟨l', hl', rfl⟩ := Option.map_eq_some_iff.1 hscan
      rw [List.flatMap_append, List.length_append] at hroom
      by_cases hdi : o.di < max - 1
      · rw [if_pos ⟨hsi, hdi⟩, writePieces_eq he _ (by omega), ih hl', List.flatMap_append,
          Expansion.putAll_append]
        rw [Expansion.putAll_di]
        omega
      · -- the buffer is full, and what is left of the line expands to nothing
        have hnil : ((expandRound src si).1 ++ l').flatMap (fun p => p.2.text e) = [] := by
          apply List.eq_nil_of_length_eq_zero
          rw [List.flatMap_append, List.length_append]
          omega
        rw [if_neg fun h => hdi h.2, hnil]
        rfl
    · next hsi =>
      rw [if_neg fun h => hsi h.1, ← Option.some.inj hscan]
      rfl

end

/-- How much of the text behind a `$` belongs to what it names. -/
def referenceLength (l : List UInt8) : Nat := (reference l).elim 0 Prod.snd

/-- A `$` that `expand_vars` reads as it should, in front of the rest `l` of the line: a name
without braces ends where the loop over it does, and braces, or nothing, may come only at the end
of the line, in front of a NUL that another one follows. -/
def DollarFine (next : UInt8) : List UInt8 → Prop
  | [] => next = 0
  | c :: l =>
    if c = charOpenBrace then
      l = l.takeWhile (· ≠ charCloseBrace) ++ [charCloseBrace] ∧ l.length ≤ 64 ∧ next = 0
    else ((c :: l).takeWhile inBareName).take 63 = ((reference (c :: l)).elim [] Prod.fst)

instance (next : UInt8) (l : List UInt8) : Decidable (DollarFine next l) := by
  cases l with
  | nil => exact inferInstanceAs (Decidable (next = 0))
  | cons c l =>
    unfold DollarFine
    infer_instance

/-- Every `$` of a line outside the names of others is read as it should, `next` being the byte
behind the line's NUL. -/
def Fine (next : UInt8) : Nat → List UInt8 → Prop
  | _, [] => True
  | skip + 1, _ :: l => Fine next skip l
  | 0, c :: l =>
    if c = charDollar then DollarFine next l ∧ Fine next (referenceLength l) l else Fine next 0 l

def Fine.decidable (next : UInt8) : (skip : Nat) → (l : List UInt8) → Decidable (Fine next skip l)
  | _, [] => .isTrue trivial
  | skip + 1, _ :: l => Fine.decidable next skip l
  | 0, c :: l =>
    have := Fine.decidable next (referenceLength l) l
    have := Fine.decidable next 0 l
    inferInstanceAs (Decidable (if c = charDollar then _ ∧ _ else _))

instance (next : UInt8) (skip : Nat) (l : List UInt8) : Decidable (Fine next skip l) :=
  Fine.decidable next skip l

theorem readName_eq (h : TextAt src i l) (accept : UInt8 → Bool) (left : Nat) :
    readName src accept left i = (l.takeWhile accept).take left := by
  induction left generalizing i l with
  | zero => exact List.take_zero.symm
  | succ left ih =>
    rw [readName]
    cases l with
    | nil =>
      have h₀ : src i = 0 := h
      rw [if_neg fun hc => hc.1 h₀]
      rfl
    | cons b l =>
      obtain ⟨hb, hb₀, hl⟩ := h
      rw [hb]
      by_cases ha : accept b = true
      · rw [if_pos ⟨hb₀, ha⟩, List.takeWhile_cons_of_pos ha, List.take_succ_cons, ih hl]
      · rw [if_neg fun hc => ha hc.2, List.takeWhile_cons_of_neg ha, List.take_nil]

theorem pieces_skip (i n : Nat) (l : List UInt8) :
    pieces i n l = pieces (i + n) 0 (l.drop n) := by
  induction n generalizing i l with
  | zero => rfl
  | succ n ih =>
    cases l with
    | nil => rfl
    | cons b l =>
      rw [pieces, ih, List.drop_succ_cons, Nat.add_assoc, Nat.add_comm 1]

theorem fine_skip (next : UInt8) (n : Nat) (l : List UInt8) :
    Fine next n l ↔ Fine next 0 (l.drop n) := by
  induction n generalizing l with
  | zero => exact Iff.rfl
  | succ n ih =>
    cases l with
    | nil => exact Iff.rfl
    | cons b l => exact ih l

theorem TextAt.drop (h : TextAt src i l) (n : Nat) (hn : n ≤ l.length) :
    TextAt src (i + n) (l.drop n) := by
  have hsplit : TextAt src i (l.take n ++ l.drop n) := by rwa [List.take_append_drop]
  have happend := hsplit.append
  rwa [List.length_take_of_le hn] at happend

/-- A round writes at least one piece, and all it writes comes from where it begins or behind. -/
theorem expandRound_first (src : Mem) (i : Nat) :
    ∃ p l, (expandRound src i).1 = (i, p) :: l := by
  unfold expandRound
  split
  · split
    · exact ⟨_, _, rfl⟩
    · dsimp only
      split
      · exact ⟨_, _, rfl⟩
      · exact ⟨_, _, rfl⟩
  · exact ⟨_, _, rfl⟩

/-- The first piece that a scan finds comes from where the scan begins. -/
theorem scanPieces_first (hscan : scanPieces src fuel i = some ((j, p) :: l)) : i = j := by
  cases fuel with
  | zero => cases hscan
  | succ fuel =>
    rw [scanPieces] at hscan
    split at hscan
    · obtain ⟨l', -, happend⟩ := Option.map_eq_some_iff.1 hscan
      obtain ⟨p', l'', hfirst⟩ := expandRound_first src i
      rw [hfirst] at happend
      exact congrArg Prod.fst (List.cons.inj happend).1
    · cases hscan

theorem scanPieces_nil_iff : scanPieces src (fuel + 1) i = some [] ↔ src i = 0 := by
  rw [scanPieces]
  split
  · next hsi =>
    refine iff_of_false (fun h => ?_) hsi
    obtain ⟨l', -, happend⟩ := Option.map_eq_some_iff.1 h
    obtain ⟨p, l, hfirst⟩ := expandRound_first src i
    rw [hfirst] at happend
    cases happend
  · next hsi => exact iff_of_true rfl (not_not.1 hsi)

theorem map_cons_eq_some_iff {α : Type} {o : Option (List α)} {x y : α} {l : List α} :
    o.map ([x] ++ ·) = some (y :: l) ↔ x = y ∧ o = some l := by
  cases o with
  | none => simp only [Option.map_none, reduceCtorEq, and_false]
  | some l' =>
    simp only [Option.map_some, List.singleton_append, Option.some.injEq, List.cons.injEq]

theorem pieces_first (i : Nat) (c : UInt8) (l : List UInt8) :
    ∃ p t, pieces i 0 (c :: l) = (i, p) :: t := by
  rw [pieces]
  split
  · split
    · exact ⟨_, _, rfl⟩
    · exact ⟨_, _, rfl⟩
  · exact ⟨_, _, rfl⟩

theorem expandRound_braces (h : TextAt src i (charDollar :: charOpenBrace :: l)) :
    expandRound src i =
      ([(i, .expanded ((l.takeWhile (· ≠ charCloseBrace)).take 63))],
        if src (i + 2 + ((l.takeWhile (· ≠ charCloseBrace)).take 63).length) = charCloseBrace
        then i + 2 + ((l.takeWhile (· ≠ charCloseBrace)).take 63).length + 1
        else i + 2 + ((l.takeWhile (· ≠ charCloseBrace)).take 63).length) := by
  rw [expandRound, if_pos h.1, if_pos h.2.2.1, readName_eq h.2.2.2.2]

theorem expandRound_bare (h : TextAt src i (charDollar :: c :: l)) (hc : c ≠ charOpenBrace)
    (hn : ((c :: l).takeWhile inBareName).take 63 = name) (hne : name ≠ []) :
    expandRound src i = ([(i, .expanded name)], i + name.length) := by
  have hc' : src (i + 1) ≠ charOpenBrace := fun h' => hc (h.2.2.1.symm.trans h')
  rw [expandRound, if_pos h.1, if_neg hc', readName_eq h.2.2, hn]
  have hlength : name.length ≠ 0 := fun hz => hne (List.eq_nil_of_length_eq_zero hz)
  have hback : i + 1 + name.length - 1 = i + name.length := by omega
  rw [← hback]
  exact if_neg hlength

theorem expandRound_dollar (h : TextAt src i (charDollar :: l)) (hc : l.head? ≠ some charOpenBrace)
    (hn : (l.takeWhile inBareName).take 63 = []) :
    expandRound src i =
      ((i, .copied charDollar) :: if src (i + 1) ≠ 0 then [(i + 1, .copied (src (i + 1)))] else [],
        i + 1) := by
  have hc' : src (i + 1) ≠ charOpenBrace := by
    cases l with
    | nil =>
      have h₀ : src (i + 1) = 0 := h.2.2
      rw [h₀]
      decide
    | cons c l => exact fun h' => hc (congrArg some (h.2.2.1.symm.trans h'))
  rw [expandRound, if_pos h.1, if_neg hc', readName_eq h.2.2, hn]
  rfl

/-- A character other than `$`. -/
theorem scanPieces_copied (h : TextAt src i (c :: l)) (hc : c ≠ charDollar) :
    scanPieces src (fuel + 1) i = some (pieces i 0 (c :: l)) ↔
      scanPieces src fuel (i + 1) = some (pieces (i + 1) 0 l) := by
  have hsi : src i ≠ 0 := h.1.symm ▸ h.2.1
  have hround : expandRound src i = ([(i, .copied c)], i) := by
    rw [expandRound, if_neg (h.1.symm ▸ hc), h.1]
  rw [scanPieces, if_pos hsi, hround, pieces, if_neg hc, map_cons_eq_some_iff]
  exact and_iff_right rfl

/-- A `$` at the end of the line. -/
theorem scanPieces_last (h : TextAt src i [charDollar]) (hnext : src (i + 2) = next) :
    scanPieces src (fuel + 2) i = some (pieces i 0 [charDollar]) ↔ Fine next 0 [charDollar] := by
  have hsi : src i ≠ 0 := h.1.symm ▸ h.2.1
  have h₀ : src (i + 1) = 0 := h.2.2
  have hround := expandRound_dollar h (by decide) rfl
  rw [if_neg (not_not.2 h₀)] at hround
  have hpieces : pieces i 0 [charDollar] = [(i, .copied charDollar)] := rfl
  have hfine : Fine next 0 [charDollar] ↔ next = 0 := by
    rw [Fine, if_pos rfl]
    exact and_iff_left trivial
  rw [scanPieces, if_pos hsi, hround, hpieces, map_cons_eq_some_iff, and_iff_right rfl,
    scanPieces_nil_iff, hfine, ← hnext]

theorem takeWhile_stop {b : UInt8} (h : (l.takeWhile (· ≠ b)).length < l.length) :
    ∃ rest, l = l.takeWhile (· ≠ b) ++ b :: rest := by
  induction l with
  | nil => cases h
  | cons c l ih =>
    by_cases hc : c = b
    · subst hc
      rw [List.takeWhile_cons_of_neg (by simp)]
      exact ⟨l, rfl⟩
    · rw [List.takeWhile_cons_of_pos (by simpa using hc)] at h ⊢
      obtain ⟨rest, hrest⟩ := ih (Nat.lt_of_succ_lt_succ h)
      exact ⟨rest, congrArg (c :: ·) hrest⟩

/-- Braces that close within their bound lose the character behind them, so they may only stand
at the end of the line. -/
theorem scanPieces_closed (h : TextAt src i (charDollar :: charOpenBrace :: l))
    (hnext : src (i + l.length + 3) = next)
    (hn : (l.takeWhile (· ≠ charCloseBrace)).length ≤ 63)
    (hlt : (l.takeWhile (· ≠ charCloseBrace)).length < l.length) :
    scanPieces src (fuel + 2) i = some (pieces i 0 (charDollar :: charOpenBrace :: l)) ↔
      Fine next 0 (charDollar :: charOpenBrace :: l) := by
  have hsi : src i ≠ 0 := h.1.symm ▸ h.2.1
  have hround := expandRound_braces h
  rw [List.take_of_length_le hn] at hround
  obtain ⟨rest, hl⟩ := takeWhile_stop hlt
  generalize hname : l.takeWhile (· ≠ charCloseBrace) = name at *
  have href : reference (charOpenBrace :: l) = some (name, name.length + 2) := by
    rw [reference, if_pos rfl, hname]
    exact if_pos ⟨hn, hlt⟩
  have hclose : src (i + 2 + name.length) = charCloseBrace := by
    have htext := h.2.2.2.2
    rw [hl] at htext
    exact htext.append.1
  have hdrop : (charOpenBrace :: l).drop (name.length + 2) = rest := by
    rw [hl, List.drop_succ_cons, List.append_cons]
    exact List.drop_left' (by rw [List.length_append]; rfl)
  rw [if_pos hclose] at hround
  rw [scanPieces, if_pos hsi, hround, pieces, if_pos rfl, href]
  dsimp only
  rw [map_cons_eq_some_iff, and_iff_right rfl, pieces_skip, hdrop, Fine, if_pos rfl,
    referenceLength, href]
  dsimp only [Option.elim]
  rw [fine_skip, hdrop]
  have hfine : DollarFine next (charOpenBrace :: l) ↔
      l = name ++ [charCloseBrace] ∧ l.length ≤ 64 ∧ next = 0 := by
    rw [DollarFine, if_pos rfl, hname]
  rw [hfine]
  cases rest with
  | nil =>
    have hlength : l.length = name.length + 1 := by
      rw [hl, List.length_append, List.length_singleton]
    have hindex : i + 2 + name.length + 1 + 1 = i + l.length + 3 := by omega
    have hend : pieces (i + 1 + (name.length + 2)) 0 [] = [] := rfl
    rw [hend, scanPieces_nil_iff, hindex, hnext]
    constructor
    · intro hz
      exact ⟨⟨hl, by omega, hz⟩, trivial⟩
    · intro hz
      exact hz.1.2.2
  | cons d rest =>
    refine iff_of_false (fun hscan => ?_) fun hdollar => ?_
    · obtain ⟨p, t, hfirst⟩ := pieces_first (i + 1 + (name.length + 2)) d rest
      rw [hfirst] at hscan
      have := scanPieces_first hscan
      omega
    · have hshort := hl.symm.trans hdollar.1.1
      rw [List.append_cancel_left_eq, List.cons.injEq] at hshort
      exact List.cons_ne_nil d rest hshort.2

/-- Braces that do not close within their bound are no reference, but the code takes them for
one. -/
theorem scanPieces_unclosed (h : TextAt src i (charDollar :: charOpenBrace :: l))
    (hn : ¬ ((l.takeWhile (· ≠ charCloseBrace)).length ≤ 63 ∧
      (l.takeWhile (· ≠ charCloseBrace)).length < l.length)) :
    scanPieces src (fuel + 1) i = some (pieces i 0 (charDollar :: charOpenBrace :: l)) ↔
      Fine next 0 (charDollar :: charOpenBrace :: l) := by
  have hsi : src i ≠ 0 := h.1.symm ▸ h.2.1
  have href : reference (charOpenBrace :: l) = none := by
    rw [reference, if_pos rfl]
    exact if_neg hn
  refine iff_of_false (fun hscan => ?_) fun hfine => ?_
  · rw [scanPieces, if_pos hsi, expandRound_braces h, pieces, if_pos rfl, href] at hscan
    have hhead := (map_cons_eq_some_iff.1 hscan).1
    cases hhead
  · rw [Fine, if_pos rfl] at hfine
    have hdollar := hfine.1
    rw [DollarFine, if_pos rfl] at hdollar
    obtain ⟨hl, hle, -⟩ := hdollar
    have hlength := congrArg List.length hl
    rw [List.length_append, List.length_singleton] at hlength
    exact hn ⟨by omega, by omega⟩

theorem reference_bare (hc : c ≠ charOpenBrace) :
    reference (c :: l) =
      if (reference (c :: l)).elim [] Prod.fst = [] then none
      else some ((reference (c :: l)).elim [] Prod.fst,
        ((reference (c :: l)).elim [] Prod.fst).length) := by
  rw [reference, if_neg hc]
  by_cases hq : c = charQuestion
  · rw [if_pos hq]
    exact (if_neg (List.cons_ne_nil c [])).symm
  · rw [if_neg hq]
    dsimp only
    split
    · rfl
    · next hne => exact (if_neg hne).symm

/-- The rest of a line, scanned with the rounds that are left, shows whether it is fine. -/
def ScansTail (src : Mem) (fuel : Nat) (next : UInt8) (i : Nat) (l : List UInt8) : Prop :=
  scanPieces src fuel i = some (pieces i 0 l) ↔ Fine next 0 l

/-- A `$` before a character that no name begins with. -/
theorem scanPieces_dollar (h : TextAt src i (charDollar :: c :: l)) (hc : c ≠ charOpenBrace)
    (hn : ((c :: l).takeWhile inBareName).take 63 = [])
    (ih : ScansTail src fuel next (i + 1 + 1) l) :
    ScansTail src (fuel + 1) next i (charDollar :: c :: l) := by
  have hsi : src i ≠ 0 := h.1.symm ▸ h.2.1
  have hbare : inBareName c = false := by
    by_contra hb
    rw [List.takeWhile_cons_of_pos (Bool.not_eq_false _ ▸ hb), List.take_succ_cons] at hn
    cases hn
  have hne : isNameChar c = false ∧ c ≠ charQuestion ∧ c ≠ charDollar := by
    simpa [inBareName, not_or] using hbare
  have href : reference (c :: l) = none := by
    rw [reference, if_neg hc, if_neg hne.2.1]
    exact if_pos (List.takeWhile_cons_of_neg (by rw [hne.1]; decide))
  have hround := expandRound_dollar h (fun h' => hc (Option.some.inj h')) hn
  rw [h.2.2.1, if_pos h.2.2.2.1] at hround
  have hpieces : pieces i 0 (charDollar :: c :: l) =
      (i, .copied charDollar) :: (i + 1, .copied c) :: pieces (i + 1 + 1) 0 l := by
    rw [pieces, if_pos rfl, href]
    dsimp only
    rw [pieces, if_neg hne.2.2]
  have hfine : Fine next 0 (charDollar :: c :: l) ↔ Fine next 0 l := by
    rw [Fine, if_pos rfl, referenceLength, href, DollarFine, if_neg hc, hn, href]
    dsimp only [Option.elim]
    rw [Fine, if_neg hne.2.2]
    exact and_iff_right rfl
  unfold ScansTail at ih ⊢
  rw [scanPieces, if_pos hsi, hround, hpieces, hfine, ← ih]
  cases scanPieces src fuel (i + 1 + 1) with
  | none => simp only [Option.map_none, reduceCtorEq]
  | some l' => simp only [Option.map_some, List.cons_append, List.nil_append, Option.some.injEq,
      List.cons.injEq, true_and]

/-- A name without braces. -/
theorem scanPieces_bare (h : TextAt src i (charDollar :: c :: l)) (hc : c ≠ charOpenBrace)
    (hn : ((c :: l).takeWhile inBareName).take 63 = name) (hne : name ≠ [])
    (ih : ScansTail src fuel next (i + 1 + name.length) ((c :: l).drop name.length)) :
    ScansTail src (fuel + 1) next i (charDollar :: c :: l) := by
  have hsi : src i ≠ 0 := h.1.symm ▸ h.2.1
  have href := reference_bare (l := l) hc
  have hfine : Fine next 0 (charDollar :: c :: l) ↔
      name = (reference (c :: l)).elim [] Prod.fst ∧
        Fine next (referenceLength (c :: l)) (c :: l) := by
    rw [Fine, if_pos rfl, DollarFine, if_neg hc, hn]
  unfold ScansTail at ih ⊢
  rw [hfine, scanPieces, if_pos hsi, expandRound_bare h hc hn hne, pieces, if_pos rfl]
  generalize hm : (reference (c :: l)).elim [] Prod.fst = m at href ⊢
  by_cases hnil : m = []
  · rw [if_pos hnil] at href
    rw [href]
    refine iff_of_false (fun hscan => ?_) fun hname => hne (hname.1.trans hnil)
    have hhead := (map_cons_eq_some_iff.1 hscan).1
    cases hhead
  · rw [if_neg hnil] at href
    rw [href]
    dsimp only
    rw [map_cons_eq_some_iff]
    have hlength : referenceLength (c :: l) = m.length := by
      rw [referenceLength, href]
      rfl
    rw [hlength]
    by_cases hname : name = m
    · subst hname
      rw [and_iff_right rfl, and_iff_right rfl, pieces_skip, fine_skip, ← ih]
      rw [Nat.add_right_comm]
    · refine iff_of_false (fun hscan => ?_) fun h' => hname h'.1
      have hhead := hscan.1
      cases hhead
      exact hname rfl

/-- The scan of a line finds the pieces of the line exactly when every `$` is fine. -/
theorem scanPieces_iff (h : TextAt src i l) (hnext : src (i + l.length + 1) = next)
    (hf : l.length < fuel) : ScansTail src fuel next i l := by
  induction fuel generalizing i l with
  | zero => omega
  | succ fuel ih =>
    cases l with
    | nil =>
      have h₀ : src i = 0 := h
      have hend : pieces i 0 [] = [] := rfl
      rw [ScansTail, hend, scanPieces_nil_iff]
      exact iff_of_true h₀ trivial
    | cons c l =>
      rw [List.length_cons] at hnext hf
      by_cases hc : c = charDollar
      · subst hc
        cases l with
        | nil =>
          cases fuel with
          | zero => exact absurd hf (by decide)
          | succ fuel => exact scanPieces_last h hnext
        | cons c l =>
          rw [List.length_cons] at hnext hf
          by_cases hb : c = charOpenBrace
          · subst hb
            by_cases hclose : (l.takeWhile (· ≠ charCloseBrace)).length ≤ 63 ∧
                (l.takeWhile (· ≠ charCloseBrace)).length < l.length
            · cases fuel with
              | zero => omega
              | succ fuel => exact scanPieces_closed h hnext hclose.1 hclose.2
            · exact scanPieces_unclosed h hclose
          · generalize hn : ((c :: l).takeWhile inBareName).take 63 = name
            by_cases hnil : name = []
            · refine scanPieces_dollar h hb (hn.trans hnil) (ih h.2.2.2.2 ?_ (by omega))
              rw [← hnext]
              congr 1
              omega
            · have hle : name.length ≤ (c :: l).length := by
                rw [← hn]
                exact (List.length_take_le' _ _).trans (List.takeWhile_prefix _).length_le
              have hpos : 0 < name.length := List.length_pos_of_ne_nil hnil
              have hdrop := TextAt.drop h.2.2 name.length hle
              refine scanPieces_bare h hb hn hnil (ih hdrop ?_ ?_)
              · rw [List.length_drop, ← hnext]
                rw [List.length_cons] at hle ⊢
                congr 1
                omega
              · rw [List.length_drop, List.length_cons]
                omega
      · have hrest : Fine next 0 (c :: l) ↔ Fine next 0 l := by
          rw [Fine, if_neg hc]
        rw [ScansTail, hrest, scanPieces_copied h hc]
        refine ih h.2.2 ?_ (by omega)
        rw [← hnext]
        congr 1
        omega

theorem expansion_no_nul {e : Environment} (h : TextAt src i l) (n : Nat) :
    0 ∉ (pieces i n l).flatMap fun p => p.2.text e := by
  induction l generalizing i n with
  | nil => exact List.not_mem_nil
  | cons c l ih =>
    have hc : (0 : UInt8) ∉ (Piece.copied c).text e :=
      fun hz => h.2.1 (List.mem_singleton.1 hz).symm
    cases n with
    | succ n => exact ih h.2.2 n
    | zero =>
      rw [pieces]
      split
      · split
        · rw [List.flatMap_cons, List.mem_append, not_or]
          exact ⟨Text.no_nul _, ih h.2.2 _⟩
        · rw [List.flatMap_cons, List.mem_append, not_or]
          exact ⟨hc, ih h.2.2 0⟩
      · rw [List.flatMap_cons, List.mem_append, not_or]
        exact ⟨hc, ih h.2.2 0⟩

/-- `dst` is the text with the variables replaced, and its length is returned. -/
def WritesExpansion (src : Mem) (line : List UInt8) : Prop :=
  ∀ e : Environment, e.Terminated → ∀ dst max, (expansion e line).length < max →
    ∃ o, expandVars (line.length + 1) e src dst max = some o ∧
      o.di = (expansion e line).length ∧ TextAt o.dst 0 (expansion e line)

theorem writesExpansion (h : TextAt src 0 line)
    (hscan : scanPieces src (line.length + 1) 0 = some (pieces 0 0 line)) :
    WritesExpansion src line := by
  intro e he dst max hmax
  have hroom : 0 + (expansion e line).length ≤ max - 1 := by omega
  have hloop : expandLoop e src max (line.length + 1) 0 ⟨dst, 0⟩ =
      some (Expansion.putAll ⟨dst, 0⟩ (expansion e line)) := expandLoop_eq he hscan hroom
  refine ⟨_, congrArg (Option.map _) hloop, Nat.zero_add _, ?_⟩
  have htext := textAt_putBytes dst 0 (expansion_no_nul (e := e) h 0)
  rwa [putBytes_append] at htext

/-- The line `${A}x` loses its last character. -/
theorem expandVars_loses_character :
    ¬ WritesExpansion (fun i => [0x24, 0x7B, 0x41, 0x7D, 0x78].getD i 0)
      [0x24, 0x7B, 0x41, 0x7D, 0x78] := by
  intro h
  have hr : ((Environment.empty 0).envSet ⟨[0x41], by decide⟩ ⟨[0x31], by decide⟩).Represents _ :=
    (Environment.represents_empty 0).envSet (by decide) (by decide)
  obtain ⟨o, ho, hdi, -⟩ := h _ (fun i _ => hr.nul_mem i) (fun _ => 0) 256 (by decide)
  have hrun := congrArg (Option.map Expansion.di) ho
  rw [Option.map_some, hdi] at hrun
  exact absurd hrun (by decide)

/-- Each character and each variable of a line is written from its own place, and so the line's
expansion for every environment and every buffer that has room for it, exactly when every `$` is
fine. -/
theorem expandVars_iff (src : Mem) (line : List UInt8) (h : TextAt src 0 line) :
    scanPieces src (line.length + 1) 0 = some (pieces 0 0 line) ∧ WritesExpansion src line ↔
      Fine (src (line.length + 1)) 0 line := by
  have hiff : ScansTail src (line.length + 1) (src (line.length + 1)) 0 line :=
    scanPieces_iff h (by rw [Nat.zero_add]) (Nat.lt_succ_self _)
  unfold ScansTail at hiff
  rw [← hiff]
  exact ⟨And.left, fun hscan => ⟨hscan, writesExpansion h hscan⟩⟩

theorem expandVars_iff_plain :
    WritesExpansion (fun i => [0x24, 0x41, 0x2B].getD i 0) [0x24, 0x41, 0x2B] :=
  ((expandVars_iff (fun i => [0x24, 0x41, 0x2B].getD i 0) [0x24, 0x41, 0x2B]
    ⟨rfl, by decide, rfl, by decide, rfl, by decide, rfl⟩).2 (by decide)).2

end KernelCustom
