import KernelCustom.Tokenizer
import KernelCustom.LoggedLoop

namespace KernelCustom
open LoggedLoop
set_option autoImplicit true

/-- `skipBlanks` with the indices at which the line is read. -/
def skipBlanksLog (input : Nat → UInt8) : Nat → Nat → Option (Nat × List Nat)
  | 0, _ => none
  | fuel + 1, i =>
    if input i = charSpace ∨ input i = charTab then logged [i] (skipBlanksLog input fuel (i + 1))
    else some (i, [i])

/-- `scanWord` with the indices at which the line is read. -/
def scanWordLog (input : Nat → UInt8) : Nat → Bool → Bool → Nat → Option (Nat × List Nat)
  | 0, _, _, _ => none
  | fuel + 1, inSq, inDq, i =>
    if input i ≠ 0 ∧ (inSq ∨ inDq ∨ (input i ≠ charSpace ∧ input i ≠ charTab)) then
      if inSq then
        if input i = charSingleQuote then logged [i] (scanWordLog input fuel false inDq (i + 1))
        else logged [i] (scanWordLog input fuel inSq inDq (i + 1))
      else if inDq then
        if input i = charDoubleQuote then logged [i] (scanWordLog input fuel inSq false (i + 1))
        else logged [i] (scanWordLog input fuel inSq inDq (i + 1))
      else if input i = charSingleQuote then
        logged [i] (scanWordLog input fuel true inDq (i + 1))
      else if input i = charDoubleQuote then
        logged [i] (scanWordLog input fuel inSq true (i + 1))
      else if input i = charBackslash then
        -- `i++; if (input[i]) i++`
        if input (i + 1) ≠ 0 then logged [i, i + 1] (scanWordLog input fuel inSq inDq (i + 2))
        else logged [i, i + 1] (scanWordLog input fuel inSq inDq (i + 1))
      else logged [i] (scanWordLog input fuel inSq inDq (i + 1))
    else some (i, [i])

/-- The outer loop of `tokenize` with the indices at which the line is read or written. -/
def tokenizeLoopLog (maxArgs : Nat) : Nat → Nat → Tokens → Option (Tokens × List Nat)
  | 0, _, _ => none
  | fuel + 1, i, t =>
    if t.input i ≠ 0 ∧ t.argc < maxArgs - 1 then do
      let skipped ← skipBlanksLog t.input (fuel + 1) i
      if t.input skipped.1 = 0 then some (t, i :: skipped.2 ++ [skipped.1])
      else
        let scanned ← scanWordLog t.input (fuel + 1) false false skipped.1
        let reads := i :: skipped.2 ++ skipped.1 :: scanned.2
        if t.argc < maxArgs - 1 then
          logged (reads ++ if scanned.1 < maxArgs * 4 then [scanned.1] else [])
            (tokenizeLoopLog maxArgs fuel scanned.1
              { argc := t.argc + 1
                argv := Function.update t.argv t.argc (some skipped.1)
                input :=
                  if scanned.1 < maxArgs * 4 then Function.update t.input scanned.1 0
                  else t.input })
        else logged reads (tokenizeLoopLog maxArgs fuel scanned.1 t)
    else some (t, [i])

/-- `tokenize` with the indices at which the line is read or written. -/
def tokenizeLog (fuel : Nat) (input : Nat → UInt8) (argv : Nat → Option Nat) (maxArgs : Nat) :
    Option (Tokens × List Nat) :=
  (tokenizeLoopLog maxArgs fuel 0 ⟨0, argv, input⟩).map fun r =>
    ({ r.1 with argv := Function.update r.1.argv r.1.argc none }, r.2)

theorem skipBlanksLog_fst (input : Nat → UInt8) (fuel i : Nat) :
    (skipBlanksLog input fuel i).map Prod.fst = skipBlanks input fuel i := by
  induction fuel generalizing i with
  | zero => rfl
  | succ fuel ih =>
    rw [skipBlanksLog, skipBlanks]
    split
    · rw [map_fst_logged, ih]
    · rfl

theorem scanWordLog_fst (input : Nat → UInt8) (fuel : Nat) (inSq inDq : Bool) (i : Nat) :
    (scanWordLog input fuel inSq inDq i).map Prod.fst = scanWord input fuel inSq inDq i := by
  induction fuel generalizing inSq inDq i with
  | zero => rfl
  | succ fuel ih =>
    simp only [scanWordLog, scanWord, apply_ite (Option.map Prod.fst), map_fst_logged, ih,
      Option.map_some]

theorem tokenizeLoopLog_fst (maxArgs fuel i : Nat) (t : Tokens) :
    (tokenizeLoopLog maxArgs fuel i t).map Prod.fst = tokenizeLoop maxArgs fuel i t := by
  induction fuel generalizing i t with
  | zero => rfl
  | succ fuel ih =>
    rw [tokenizeLoopLog, tokenizeLoop, ← skipBlanksLog_fst]
    split
    · cases hskip : skipBlanksLog t.input (fuel + 1) i with
      | none => rfl
      | some skipped =>
        simp only [Option.bind_eq_bind, Option.bind_some, Option.map_some, ← scanWordLog_fst]
        split
        · rfl
        · cases hscan : scanWordLog t.input (fuel + 1) false false skipped.1 with
          | none => rfl
          | some scanned =>
            simp only [Option.bind_some, Option.map_some, apply_ite (Option.map Prod.fst),
              map_fst_logged, ih]
    · rfl

/-- The logged function computes what `tokenize` computes. -/
theorem tokenizeLog_fst (fuel : Nat) (input : Nat → UInt8) (argv : Nat → Option Nat)
    (maxArgs : Nat) :
    (tokenizeLog fuel input argv maxArgs).map Prod.fst = tokenize fuel input argv maxArgs := by
  rw [tokenizeLog, tokenize, ← tokenizeLoopLog_fst, Option.map_map, Option.map_map]
  rfl

/-- A scan from `i` on that stops at `r.1`, not before `lo`, and passes no index behind `n`. -/
def StaysWithin (n lo : Nat) (r : Nat × List Nat) : Prop :=
  lo ≤ r.1 ∧ r.1 ≤ n ∧ ∀ k ∈ r.2, k ≤ n

theorem StaysWithin.logged (h : StaysWithin n lo r) (hlo : lo' ≤ lo) (hl : ∀ k ∈ l, k ≤ n) :
    StaysWithin n lo' (r.1, l ++ r.2) := by
  refine ⟨Nat.le_trans hlo h.1, h.2.1, fun k hk => ?_⟩
  rcases List.mem_append.1 hk with hk | hk
  · exact hl k hk
  · exact h.2.2 k hk

theorem skipBlanksLog_ends (hn : input n = 0) (hi : i ≤ n) :
    Ends (fun fuel => skipBlanksLog input fuel i) (n - i + 1) fun r =>
      StaysWithin n i r ∧ input r.1 ≠ charSpace ∧ input r.1 ≠ charTab := by
  obtain ⟨d, rfl⟩ := Nat.exists_eq_add_of_le hi
  rw [Nat.add_sub_cancel_left]
  induction d generalizing i with
  | zero =>
    have hblank : ¬ (input i = charSpace ∨ input i = charTab) := by
      rw [Nat.add_zero] at hn
      rw [hn]
      decide
    refine Ends.stop (r := (i, [i])) (fun fuel => if_neg hblank) ?_ 0
    exact ⟨⟨Nat.le_refl i, Nat.le_refl i, fun k hk => Nat.le_of_eq (List.mem_singleton.1 hk)⟩,
      not_or.1 hblank⟩
  | succ d ih =>
    by_cases hblank : input i = charSpace ∨ input i = charTab
    · have hrest := ih (i := i + 1) (by rwa [Nat.add_assoc, Nat.add_comm 1]) (by omega)
      refine hrest.round (l := [i]) (Nat.lt_succ_self _) (fun fuel _ => if_pos hblank)
        fun r hr => ⟨?_, hr.2⟩
      have hsum : i + 1 + d = i + (d + 1) := by omega
      rw [hsum] at hr
      refine hr.1.logged (Nat.le_succ i) fun k hk => ?_
      have := List.mem_singleton.1 hk
      omega
    · refine Ends.stop (r := (i, [i])) (fun fuel => if_neg hblank) ?_ _
      refine ⟨⟨Nat.le_refl i, hi, fun k hk => ?_⟩, not_or.1 hblank⟩
      have := List.mem_singleton.1 hk
      omega

/-- A round of the scan of a word that goes on. -/
theorem scanWordLog_round {inSq inDq : Bool} (hn : input n = 0) (hi : i ≤ n)
    (hgo : input i ≠ 0 ∧ (inSq ∨ inDq ∨ (input i ≠ charSpace ∧ input i ≠ charTab))) :
    ∃ l inSq' inDq' j, i < j ∧ j ≤ n ∧ (∀ k ∈ l, k ≤ n) ∧
      ∀ fuel, scanWordLog input (fuel + 1) inSq inDq i =
        logged l (scanWordLog input fuel inSq' inDq' j) := by
  have hlt : i < n := by
    refine Nat.lt_of_le_of_ne hi fun h => hgo.1 ?_
    rwa [h]
  have hone : ∀ k ∈ [i], k ≤ n := fun k hk => by
    rw [List.mem_singleton.1 hk]
    exact hi
  have htwo : ∀ k ∈ [i, i + 1], k ≤ n := fun k hk => by
    simp only [List.mem_cons, List.not_mem_nil, or_false] at hk
    omega
  have hnext : ∀ inSq' inDq',
      (∀ fuel, scanWordLog input (fuel + 1) inSq inDq i =
        logged [i] (scanWordLog input fuel inSq' inDq' (i + 1))) →
      ∃ l inSq' inDq' j, i < j ∧ j ≤ n ∧ (∀ k ∈ l, k ≤ n) ∧
        ∀ fuel, scanWordLog input (fuel + 1) inSq inDq i =
          logged l (scanWordLog input fuel inSq' inDq' j) :=
    fun inSq' inDq' h => ⟨[i], inSq', inDq', i + 1, Nat.lt_succ_self i, hlt, hone, h⟩
  by_cases hs : inSq = true
  · by_cases hc : input i = charSingleQuote
    · refine hnext false inDq fun fuel => ?_
      rw [scanWordLog, if_pos hgo, if_pos hs, if_pos hc]
    · refine hnext inSq inDq fun fuel => ?_
      rw [scanWordLog, if_pos hgo, if_pos hs, if_neg hc]
  by_cases hd : inDq = true
  · by_cases hc : input i = charDoubleQuote
    · refine hnext inSq false fun fuel => ?_
      rw [scanWordLog, if_pos hgo, if_neg hs, if_pos hd, if_pos hc]
    · refine hnext inSq inDq fun fuel => ?_
      rw [scanWordLog, if_pos hgo, if_neg hs, if_pos hd, if_neg hc]
  by_cases h₁ : input i = charSingleQuote
  · refine hnext true inDq fun fuel => ?_
    rw [scanWordLog, if_pos hgo, if_neg hs, if_neg hd, if_pos h₁]
  by_cases h₂ : input i = charDoubleQuote
  · refine hnext inSq true fun fuel => ?_
    rw [scanWordLog, if_pos hgo, if_neg hs, if_neg hd, if_neg h₁, if_pos h₂]
  by_cases h₃ : input i = charBackslash
  · by_cases hc : input (i + 1) ≠ 0
    · -- the escaped character is not the NUL, so two may be skipped
      have hlt' : i + 1 < n := by
        refine Nat.lt_of_le_of_ne hlt fun h => hc ?_
        rwa [h]
      refine ⟨[i, i + 1], inSq, inDq, i + 2, by omega, hlt', htwo, fun fuel => ?_⟩
      rw [scanWordLog, if_pos hgo, if_neg hs, if_neg hd, if_neg h₁, if_neg h₂, if_pos h₃, if_pos hc]
    · refine ⟨[i, i + 1], inSq, inDq, i + 1, Nat.lt_succ_self i, hlt, htwo, fun fuel => ?_⟩
      rw [scanWordLog, if_pos hgo, if_neg hs, if_neg hd, if_neg h₁, if_neg h₂, if_pos h₃, if_neg hc]
  · refine hnext inSq inDq fun fuel => ?_
    rw [scanWordLog, if_pos hgo, if_neg hs, if_neg hd, if_neg h₁, if_neg h₂, if_neg h₃]

theorem scanWordLog_ends (hn : input n = 0) (hi : i ≤ n) (inSq inDq : Bool) :
    Ends (fun fuel => scanWordLog input fuel inSq inDq i) (n - i + 1) (StaysWithin n i) := by
  induction hd : n - i using Nat.strongRecOn generalizing i inSq inDq with
  | ind d ih =>
    by_cases hgo : input i ≠ 0 ∧ (inSq ∨ inDq ∨ (input i ≠ charSpace ∧ input i ≠ charTab))
    · obtain ⟨l, inSq', inDq', j, hij, hj, hl, hround⟩ := scanWordLog_round hn hi hgo
      have hrest := ih (n - j) (by omega) hj inSq' inDq' rfl
      exact hrest.round (by omega) (fun fuel _ => hround fuel)
        fun r hr => hr.logged (Nat.le_of_lt hij) hl
    · refine Ends.stop (r := (i, [i])) (fun fuel => if_neg hgo) ?_ d
      refine ⟨Nat.le_refl i, hi, fun k hk => ?_⟩
      rw [List.mem_singleton.1 hk]
      exact hi

/-- A word is not empty. -/
theorem scanWordLog_word (hn : input n = 0) (hi : i ≤ n)
    (hword : input i ≠ 0 ∧ input i ≠ charSpace ∧ input i ≠ charTab) :
    Ends (fun fuel => scanWordLog input fuel false false i) (n - i + 1)
      (StaysWithin n (i + 1)) := by
  have hgo : input i ≠ 0 ∧
      (false = true ∨ false = true ∨ (input i ≠ charSpace ∧ input i ≠ charTab)) :=
    ⟨hword.1, .inr (.inr hword.2)⟩
  obtain ⟨l, inSq', inDq', j, hij, hj, hl, hround⟩ := scanWordLog_round hn hi hgo
  have hrest := scanWordLog_ends hn hj inSq' inDq'
  exact hrest.round (by omega) (fun fuel _ => hround fuel) fun r hr => hr.logged hij hl

/-- The state of `tokenize` behind a word from `a` to `z`. -/
def Tokens.afterWord (t : Tokens) (maxArgs a z : Nat) : Tokens where
  argc := t.argc + 1
  argv := Function.update t.argv t.argc (some a)
  input := if z < maxArgs * 4 then Function.update t.input z 0 else t.input

theorem Tokens.afterWord_nul {t : Tokens} (h : t.input n = 0) (maxArgs a z : Nat) :
    (t.afterWord maxArgs a z).input n = 0 := by
  change (if z < maxArgs * 4 then Function.update t.input z 0 else t.input) n = 0
  split
  · rw [Function.update_apply]
    split
    · rfl
    · exact h
  · exact h

/-- The words found so far start before `i`, one behind the other. -/
structure Tokens.Ordered (t : Tokens) (i : Nat) (p : Nat → Nat) : Prop where
  points : ∀ k, k < t.argc → t.argv k = some (p k) ∧ p k < i
  increasing : ∀ j k, j < k → k < t.argc → p j < p k

/-- A word that starts at or behind `i` joins them. -/
theorem Tokens.Ordered.word (h : Tokens.Ordered t i p) (ha : i ≤ a) (hz : a < z)
    (maxArgs : Nat) : (t.afterWord maxArgs a z).Ordered z (Function.update p t.argc a) := by
  refine ⟨fun k hk => ?_, fun j k hjk hk => ?_⟩
  · rcases Nat.lt_succ_iff_lt_or_eq.1 hk with hlt | rfl
    · have hold := h.points k hlt
      rw [Function.update_of_ne (Nat.ne_of_lt hlt)]
      exact ⟨(Function.update_of_ne (Nat.ne_of_lt hlt) _ _).trans hold.1, by omega⟩
    · rw [Function.update_self]
      exact ⟨Function.update_self _ _ _, hz⟩
  · have hj : j < t.argc := by
      have : k < t.argc + 1 := hk
      omega
    rw [Function.update_of_ne (Nat.ne_of_lt hj)]
    rcases Nat.lt_succ_iff_lt_or_eq.1 hk with hlt | rfl
    · rw [Function.update_of_ne (Nat.ne_of_lt hlt)]
      exact h.increasing j k hjk hlt
    · rw [Function.update_self]
      have := (h.points j hj).2
      omega

/-- What the outer loop leaves, `n` being the index of the line's NUL. -/
def TokenizesWithin (n maxArgs : Nat) (r : Tokens × List Nat) : Prop :=
  (∀ k ∈ r.2, k ≤ n) ∧ r.1.argc ≤ maxArgs - 1 ∧ ∃ p, r.1.Ordered n p

/-- A round of the outer loop that is not refused finds the end of the line or a word. -/
theorem tokenizeLoopLog_round (hn : t.input n = 0) (hi : i ≤ n)
    (hgo : t.input i ≠ 0 ∧ t.argc < maxArgs - 1) :
    ∃ l, (∀ k ∈ l, k ≤ n) ∧
      ((∀ fuel, n - i ≤ fuel → tokenizeLoopLog maxArgs (fuel + 1) i t = some (t, l)) ∨
        ∃ a z, i ≤ a ∧ a < z ∧ z ≤ n ∧ ∀ fuel, n - i ≤ fuel →
          tokenizeLoopLog maxArgs (fuel + 1) i t =
            logged l (tokenizeLoopLog maxArgs fuel z (t.afterWord maxArgs a z))) := by
  obtain ⟨⟨a, l⟩, hskip, ⟨hia, han, hl⟩, hblank⟩ := skipBlanksLog_ends hn hi
  dsimp only at hskip hia han hl hblank
  by_cases h₀ : t.input a = 0
  · -- nothing but blanks is left
    refine ⟨i :: l ++ [a], ?_, .inl fun fuel hf => ?_⟩
    · simp only [List.cons_append, List.mem_cons, List.mem_append, List.not_mem_nil, or_false]
      rintro k (rfl | hk | rfl)
      · exact hi
      · exact hl k hk
      · exact han
    · simp only [tokenizeLoopLog, if_pos hgo, hskip (fuel + 1) (by omega), Option.bind_eq_bind,
        Option.bind_some, if_pos h₀]
  · obtain ⟨⟨z, l'⟩, hscan, haz, hzn, hl'⟩ := scanWordLog_word hn han ⟨h₀, hblank⟩
    dsimp only at hscan haz hzn hl'
    refine ⟨i :: l ++ a :: l' ++ if z < maxArgs * 4 then [z] else [], ?_,
      .inr ⟨a, z, hia, haz, hzn, fun fuel hf => ?_⟩⟩
    · have hcut : ∀ k ∈ if z < maxArgs * 4 then [z] else [], k ≤ n := by
        intro k hk
        split at hk
        · rw [List.mem_singleton.1 hk]
          exact hzn
        · cases hk
      simp only [List.cons_append, List.mem_cons, List.mem_append]
      rintro k (rfl | (hk | rfl | hk) | hk)
      · exact hi
      · exact hl k hk
      · exact han
      · exact hl' k hk
      · exact hcut k hk
    · simp only [tokenizeLoopLog, if_pos hgo, hskip (fuel + 1) (by omega), Option.bind_eq_bind,
        Option.bind_some, if_neg h₀, hscan (fuel + 1) (by omega), if_pos hgo.2]
      rfl

theorem tokenizeLoopLog_ends (hn : t.input n = 0) (hi : i ≤ n) (hargc : t.argc ≤ maxArgs - 1)
    (ht : t.Ordered i p) :
    Ends (fun fuel => tokenizeLoopLog maxArgs fuel i t) (n - i + 1)
      (TokenizesWithin n maxArgs) := by
  induction hd : n - i using Nat.strongRecOn generalizing i t p with
  | ind d ih =>
    have hend : t.Ordered n p := by
      refine ⟨fun k hk => ⟨(ht.points k hk).1, ?_⟩, ht.increasing⟩
      exact Nat.lt_of_lt_of_le (ht.points k hk).2 hi
    by_cases hgo : t.input i ≠ 0 ∧ t.argc < maxArgs - 1
    · obtain ⟨l, hl, hstop | ⟨a, z, hia, haz, hzn, hround⟩⟩ := tokenizeLoopLog_round hn hi hgo
      · refine ⟨(t, l), fun fuel hf => ?_, hl, hargc, p, hend⟩
        obtain ⟨fuel, rfl⟩ : ∃ f, fuel = f + 1 := ⟨fuel - 1, by omega⟩
        exact hstop fuel (by omega)
      · have hargc' : (t.afterWord maxArgs a z).argc ≤ maxArgs - 1 := hgo.2
        have hrest := ih (n - z) (by omega) (Tokens.afterWord_nul hn maxArgs a z) hzn hargc'
          (ht.word hia haz _) rfl
        refine hrest.round (by omega) (fun fuel hf => hround fuel (by omega))
          fun r hr => ⟨?_, hr.2⟩
        intro k hk
        rcases List.mem_append.1 hk with hk | hk
        · exact hl k hk
        · exact hr.1 k hk
    · refine Ends.stop (r := (t, [i])) (fun fuel => if_neg hgo) ⟨fun k hk => ?_, hargc, p, hend⟩ d
      rw [List.mem_singleton.1 hk]
      exact hi

theorem TextAt.end_eq (h : TextAt input i l) : input (i + l.length) = 0 := by
  have hend : TextAt input (i + l.length) [] := by
    refine TextAt.append ?_
    rwa [List.append_nil]
  exact hend

/-- Whatever the line holds, `tokenize` comes to an end, stays between the line's first byte and
its NUL, and leaves a null-terminated list of pointers into the line, each behind the one before. -/
theorem tokenize_in_bounds (h : TextAt input 0 line) (argv : Nat → Option Nat)
    (hmax : 1 ≤ maxArgs) :
    ∃ t accesses,
      (∀ fuel, line.length < fuel →
        tokenize fuel input argv maxArgs = some t ∧
        tokenizeLog fuel input argv maxArgs = some (t, accesses)) ∧
      (∀ i ∈ accesses, i ≤ line.length) ∧
      t.argc < maxArgs ∧
      t.argv t.argc = none ∧
      ∃ p : Nat → Nat, (∀ k, k < t.argc → t.argv k = some (p k) ∧ p k < line.length) ∧
        ∀ j k, j < k → k < t.argc → p j < p k := by
  have hn : input line.length = 0 := by
    have := h.end_eq
    rwa [Nat.zero_add] at this
  have hnone : (⟨0, argv, input⟩ : Tokens).Ordered 0 fun _ => 0 :=
    ⟨fun k hk => absurd hk (Nat.not_lt_zero k), fun j k _ hk => absurd hk (Nat.not_lt_zero k)⟩
  have hargc₀ : (⟨0, argv, input⟩ : Tokens).argc ≤ maxArgs - 1 := Nat.zero_le _
  obtain ⟨⟨t, l⟩, hloop, hl, hargc, p, hp⟩ :=
    tokenizeLoopLog_ends hn (Nat.zero_le _) hargc₀ hnone
  dsimp only at hloop hl hargc hp
  refine ⟨{ t with argv := Function.update t.argv t.argc none }, l, fun fuel hf => ?_, hl, ?_,
    Function.update_self _ _ _, p, fun k hk => ⟨?_, (hp.points k hk).2⟩, hp.increasing⟩
  · have hlog : tokenizeLog fuel input argv maxArgs =
        some ({ t with argv := Function.update t.argv t.argc none }, l) := by
      rw [tokenizeLog, hloop fuel (by omega)]
      rfl
    refine ⟨?_, hlog⟩
    rw [← tokenizeLog_fst, hlog]
    rfl
  · dsimp only
    omega
  · dsimp only
    rw [Function.update_of_ne (Nat.ne_of_lt hk)]
    exact (hp.points k hk).1

/-- `'a \`: an open quote with a backslash at the end. -/
theorem tokenize_in_bounds_open_quote :
    ∃ t accesses,
      (∀ fuel, 4 < fuel →
        tokenize fuel (lineArray [0x27, 0x61, 0x20, 0x5C]) (fun _ => none) 32 = some t ∧
        tokenizeLog fuel (lineArray [0x27, 0x61, 0x20, 0x5C]) (fun _ => none) 32 =
          some (t, accesses)) ∧
      (∀ i ∈ accesses, i ≤ 4) ∧
      t.argc < 32 ∧
      t.argv t.argc = none ∧
      ∃ p : Nat → Nat, (∀ k, k < t.argc → t.argv k = some (p k) ∧ p k < 4) ∧
        ∀ j k, j < k → k < t.argc → p j < p k := by
  have htext : TextAt (lineArray [0x27, 0x61, 0x20, 0x5C]) 0 [0x27, 0x61, 0x20, 0x5C] := by
    simp only [TextAt]
    decide
  exact tokenize_in_bounds htext _ (by decide)

end KernelCustom
