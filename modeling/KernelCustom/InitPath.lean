import KernelCustom.MemoryInit
import KernelCustom.Tokenizer
import KernelCustom.Directory
import KernelCustom.KeyedWords
import KernelCustom.LoggedLoop

namespace KernelCustom
open ByteStore KeyedWords LoggedLoop
set_option autoImplicit true

def mbCmdline (m : Mem) (mb : Nat) : Nat := load32 m (mb + 16)

/-- `prefix`. -/
def initPrefix : List UInt8 := ascii "init="

/-- The loop over `prefix`: `match`, and the addresses that it reads. -/
def matchAt (m : Mem) : Nat → List UInt8 → Bool × List Nat
  | _, [] => (true, [])
  | p, c :: key =>
    if m p ≠ c then (false, [p]) else ((matchAt m (p + 1) key).1, p :: (matchAt m (p + 1) key).2)

/-- The loop over the value: `g_init_path` with its NUL, and the addresses that it reads. -/
def copyInitValue (m : Mem) (val : Nat) :
    Nat → Nat → (Nat → UInt8) → Option ((Nat → UInt8) × List Nat)
  | 0, _, _ => none
  | fuel + 1, i, path =>
    if m (val + i) ≠ 0 ∧ m (val + i) ≠ charSpace ∧ i < 127 then
      logged [val + i] (copyInitValue m val fuel (i + 1) (Function.update path i (m (val + i))))
    else some (Function.update path i 0, [val + i])

/-- The loop over the command line. -/
def scanCmdline (m : Mem) (path : Nat → UInt8) : Nat → Nat → Option ((Nat → UInt8) × List Nat)
  | 0, _ => none
  | fuel + 1, p =>
    if m p ≠ 0 then
      let (isMatch, reads) := matchAt m p initPrefix
      if isMatch then logged (p :: reads) (copyInitValue m (p + 5) 128 0 path)
      else logged (p :: reads) (scanCmdline m path fuel (p + 1))
    else some (path, [p])

/-- `parse_init_cmdline`, with what it leaves in `g_init_path` and the addresses of the command line
that it reads. -/
def parseInitCmdline (fuel : Nat) (m : Mem) (path : Nat → UInt8) (mb : Nat) :
    Option ((Nat → UInt8) × List Nat) :=
  if mbFlags m mb &&& (1 <<< 2) = 0 ∨ mbCmdline m mb = 0 then some (path, [])
  else scanCmdline m path fuel (mbCmdline m mb)

theorem matchAt_spec (h : TextAt m p l) (hkey : 0 ∉ key) :
    (matchAt m p key).1 = key.isPrefixOf l ∧ ∀ a ∈ (matchAt m p key).2, a ≤ p + l.length := by
  induction key generalizing p l with
  | nil => exact ⟨rfl, nofun⟩
  | cons c key ih =>
    rw [List.mem_cons, not_or] at hkey
    rw [matchAt]
    cases l with
    | nil =>
      have hend : m p = 0 := h
      rw [hend, if_pos hkey.1]
      exact ⟨rfl, fun a ha => Nat.le_of_eq (List.mem_singleton.1 ha)⟩
    | cons b l =>
      obtain ⟨hb, -, hl⟩ := h
      obtain ⟨hmatch, hreads⟩ := ih hl hkey.2
      rw [hb, List.isPrefixOf]
      by_cases hc : b = c
      · rw [if_neg (not_not.2 hc), hmatch, hc, beq_self_eq_true, Bool.true_and]
        refine ⟨rfl, fun a ha => ?_⟩
        rw [List.length_cons]
        rcases List.mem_cons.1 ha with rfl | ha
        · omega
        · have := hreads a ha
          omega
      · rw [if_pos hc, beq_eq_false_iff_ne.2 (Ne.symm hc), Bool.false_and]
        exact ⟨rfl, fun a ha => by rw [List.mem_singleton.1 ha]; omega⟩

/-- The value that is stored: what stands up to the next space, cut to 127 bytes. -/
def storedValue (l : List UInt8) : List UInt8 := (upToSep charSpace l).take 127

/-- What the loop over the value makes of the path from index `i` on. -/
theorem copyInitValue_spec (h : TextAt m (val + i) l) (hi : i ≤ 127) (hf : 127 < i + fuel)
    (path : Nat → UInt8) :
    ∃ r, copyInitValue m val fuel i path = some r ∧
      TextAt r.1 i ((upToSep charSpace l).take (127 - i)) ∧
      (∀ j, j < i ∨ i + ((upToSep charSpace l).take (127 - i)).length < j → r.1 j = path j) ∧
      ∀ a ∈ r.2, a ≤ val + i + l.length := by
  induction fuel generalizing i l path with
  | zero => omega
  | succ fuel ih =>
    have hstop : (upToSep charSpace l).take (127 - i) = [] →
        ∃ r, some (Function.update path i 0, [val + i]) = some r ∧
          TextAt r.1 i ((upToSep charSpace l).take (127 - i)) ∧
          (∀ j, j < i ∨ i + ((upToSep charSpace l).take (127 - i)).length < j → r.1 j = path j) ∧
          ∀ a ∈ r.2, a ≤ val + i + l.length := by
      intro hnil
      rw [hnil]
      refine ⟨_, rfl, Function.update_self .., fun j hj => ?_, fun a ha => ?_⟩
      · rw [List.length_nil] at hj
        exact Function.update_of_ne (by omega) ..
      · rw [List.mem_singleton.1 ha]
        omega
    rw [copyInitValue]
    cases l with
    | nil =>
      have hend : m (val + i) = 0 := h
      rw [if_neg (fun hc => hc.1 hend)]
      exact hstop List.take_nil
    | cons b l =>
      obtain ⟨hb, hne, hl⟩ := h
      rw [hb]
      by_cases hspace : b = charSpace
      · rw [if_neg (fun hc => hc.2.1 hspace)]
        apply hstop
        rw [upToSep, List.takeWhile_cons_of_neg (by simpa using hspace), List.take_nil]
      · by_cases hlast : i < 127
        · have hcons : (upToSep charSpace (b :: l)).take (127 - i) =
              b :: (upToSep charSpace l).take (127 - (i + 1)) := by
            rw [upToSep, List.takeWhile_cons_of_pos (by simpa using hspace),
              show 127 - i = 127 - (i + 1) + 1 by omega, List.take_succ_cons]
            rfl
          obtain ⟨r, hr, htext, hframe, hreads⟩ :=
            ih (i := i + 1) hl (by omega) (by omega) (Function.update path i b)
          rw [if_pos ⟨hne, hspace, hlast⟩, hr, hcons]
          refine ⟨_, rfl, ⟨?_, hne, htext⟩, fun j hj => ?_, fun a ha => ?_⟩
          · exact (hframe i (.inl (by omega))).trans (Function.update_self ..)
          · rw [List.length_cons] at hj
            rw [hframe j (by omega)]
            exact Function.update_of_ne (by omega) ..
          · rw [List.length_cons]
            rcases List.mem_cons.1 ha with rfl | ha
            · omega
            · have := hreads a ha
              omega
        · rw [if_neg (fun hc => hlast hc.2.2)]
          apply hstop
          rw [show 127 - i = 0 by omega, List.take_zero]

/-- What the code makes of the path: it takes the first place of the key, be it the start of a word
or not. -/
structure TakesFirstKey (path : Nat → UInt8) (line : List UInt8) (path' : Nat → UInt8) : Prop where
  missing : findKey initPrefix line = none → path' = path
  found : ∀ a b, findKey initPrefix line = some (a, b) → TextAt path' 0 (storedValue b) ∧
    ∀ j, (storedValue b).length < j → path' j = path j

theorem scanCmdline_spec (h : TextAt m p l) (path : Nat → UInt8) :
    Ends (fun fuel => scanCmdline m path fuel p) (l.length + 1) fun r =>
      TakesFirstKey path l r.1 ∧ ∀ a ∈ r.2, a ≤ p + l.length := by
  induction l generalizing p with
  | nil =>
    have hend : m p = 0 := h
    refine .stop (r := (path, [p])) (fun fuel => ?_)
      ⟨⟨fun _ => rfl, fun a b hsome => ?_⟩, fun a ha => ?_⟩ 0
    · rw [scanCmdline, if_neg (not_not.2 hend)]
    · cases hsome
    · exact Nat.le_of_eq (List.mem_singleton.1 ha)
  | cons c l ih =>
    have hnul : 0 ∉ initPrefix := by decide
    obtain ⟨hmatch, hreads⟩ := matchAt_spec h hnul
    have hne : m p ≠ 0 := by
      rw [h.1]
      exact h.2.1
    have hround : ∀ a ∈ p :: (matchAt m p initPrefix).2, a ≤ p + (c :: l).length :=
      List.forall_mem_cons.2 ⟨Nat.le_add_right p _, hreads⟩
    by_cases hkey : initPrefix.isPrefixOf (c :: l) = true
    · obtain ⟨b, hb⟩ := List.isPrefixOf_iff_prefix.1 hkey
      have htext : TextAt m (p + 5 + 0) b := TextAt.append (hb.symm ▸ h)
      have hlen : (c :: l).length = 5 + b.length := by
        rw [← hb, List.length_append]
        rfl
      have hfind : findKey initPrefix (c :: l) = some ([], b) := by
        rw [findKey, if_pos hkey, ← hb, List.drop_left]
      obtain ⟨r, hr, hvalue, hframe, hread⟩ :=
        copyInitValue_spec htext (by omega) (show 127 < 0 + 128 by decide) path
      refine .stop (r := (r.1, p :: (matchAt m p initPrefix).2 ++ r.2)) (fun fuel => ?_)
        ⟨⟨fun hnone => ?_, fun a b' hsome => ?_⟩, fun a ha => ?_⟩ _
      · rw [scanCmdline, if_pos hne]
        dsimp only
        rw [hmatch, if_pos hkey, hr]
        rfl
      · rw [hfind] at hnone
        cases hnone
      · rw [hfind] at hsome
        cases hsome
        exact ⟨hvalue, fun j hj => hframe j (.inr (by rw [Nat.zero_add]; exact hj))⟩
      · rcases List.mem_append.1 ha with ha | ha
        · exact hround a ha
        · have := hread a ha
          omega
    · have hfind : findKey initPrefix (c :: l) =
          (findKey initPrefix l).map fun p => (c :: p.1, p.2) := by
        rw [findKey, if_neg hkey]
      refine (ih h.2.2).round (Nat.lt_succ_self _) (l := p :: (matchAt m p initPrefix).2)
        (fun fuel _ => ?_) ?_
      · rw [scanCmdline, if_pos hne]
        dsimp only
        rw [hmatch, if_neg hkey]
      rintro r ⟨htakes, hread⟩
      refine ⟨⟨fun hnone => ?_, fun a b hsome => ?_⟩, fun a ha => ?_⟩
      · rw [hfind, Option.map_eq_none_iff] at hnone
        exact htakes.missing hnone
      · rw [hfind] at hsome
        obtain ⟨⟨a', b'⟩, hfound, heq⟩ := Option.map_eq_some_iff.1 hsome
        cases heq
        exact htakes.found a' _ hfound
      · rcases List.mem_append.1 ha with ha | ha
        · exact hround a ha
        · have := hread a ha
          rw [List.length_cons]
          omega

/-- The path and the reads that are asked for. -/
structure ParsesInit (m : Mem) (mb : Nat) (path : Nat → UInt8) (line : List UInt8)
    (r : (Nat → UInt8) × List Nat) : Prop where
  found : ∀ w, keyedWord charSpace initPrefix line = some w → TextAt r.1 0 (w.take 127)
  missing : keyedWord charSpace initPrefix line = none → r.1 = path
  terminated : ∃ i < 128, r.1 i = 0
  reads : ∀ a ∈ r.2, a ≤ mbCmdline m mb + line.length

/-- The first place of the key is the start of a word, or it happens to bring what is asked for. -/
def SeesOption (path : Nat → UInt8) (line : List UInt8) : Prop :=
  ∀ a b, findKey initPrefix line = some (a, b) →
    (a = [] ∨ a.getLast? = some charSpace) ∨
    (∃ w, keyedWord charSpace initPrefix line = some w ∧ w.take 127 = storedValue b) ∨
    (keyedWord charSpace initPrefix line = none ∧ TextAt path 0 (storedValue b))

theorem storedValue_length (l : List UInt8) : (storedValue l).length ≤ 127 :=
  List.length_take_le ..

/-- Two arrays that hold the same text agree up to its NUL. -/
theorem TextAt.agree (h : TextAt f i l) (h' : TextAt g i l) (hj : i ≤ j) (hjl : j ≤ i + l.length) :
    f j = g j := by
  induction l generalizing i with
  | nil =>
    obtain rfl : j = i := Nat.le_antisymm hjl hj
    exact (show f j = 0 from h).trans (show g j = 0 from h').symm
  | cons b l ih =>
    rcases Nat.eq_or_lt_of_le hj with rfl | hlt
    · exact h.1.trans h'.1.symm
    · rw [List.length_cons] at hjl
      exact ih h.2.2 h'.2.2 hlt (by omega)

theorem TakesFirstKey.unchanged_iff (h : TakesFirstKey path line path')
    (hfind : findKey initPrefix line = some (a, b)) :
    path' = path ↔ TextAt path 0 (storedValue b) := by
  obtain ⟨htext, hframe⟩ := h.found a b hfind
  constructor
  · rintro rfl
    exact htext
  · intro hold
    funext j
    rcases Nat.lt_or_ge (storedValue b).length j with hj | hj
    · exact hframe j hj
    · exact htext.agree hold (Nat.zero_le j) (by omega)

theorem TakesFirstKey.terminated (h : TakesFirstKey path line path')
    (hpath : ∃ i < 128, path i = 0) : ∃ i < 128, path' i = 0 := by
  cases hfind : findKey initPrefix line with
  | none =>
    rw [h.missing hfind]
    exact hpath
  | some p =>
    have htext := (h.found p.1 p.2 hfind).1
    rw [← List.append_nil (storedValue p.2)] at htext
    have hlen := storedValue_length p.2
    exact ⟨0 + (storedValue p.2).length, by omega, htext.append⟩

/-- Memory with multiboot information at 16 that points to a command line at 64. -/
def bootedWith (line : List UInt8) : Mem := fun a =>
  if a = 16 then 4
  else if a = 16 + 16 then 64
  else if 64 ≤ a then line.getD (a - 64) 0
  else 0

/-- `g_init_path` as the kernel is loaded. -/
def gInitPath : Nat → UInt8 := fun i => (ascii "./shell.elf").getD i 0

theorem textAt_of_getD (h : 0 ∉ l) (hm : ∀ i, m (p + i) = l.getD i 0) : TextAt m p l := by
  induction l generalizing p with
  | nil => exact hm 0
  | cons c l ih =>
    rw [List.mem_cons, not_or] at h
    refine ⟨hm 0, Ne.symm h.1, ih h.2 fun i => ?_⟩
    rw [Nat.add_assoc, Nat.add_comm 1, hm (i + 1), List.getD_cons_succ]

theorem bootedWith_text (h : 0 ∉ line) :
    TextAt (bootedWith line) (mbCmdline (bootedWith line) 16) line := by
  refine textAt_of_getD h fun i => ?_
  have hp : mbCmdline (bootedWith line) 16 = 64 := rfl
  rw [hp, bootedWith, if_neg (by omega), if_neg (by omega), if_pos (by omega),
    Nat.add_sub_cancel_left]

/-- The boot option is parsed as asked exactly when the first place of the key in the line is the
start of a word, or brings the same by chance. -/
theorem init_path_parsed_iff (hflag : mbFlags m mb &&& (1 <<< 2) ≠ 0) (hptr : mbCmdline m mb ≠ 0)
    (htext : TextAt m (mbCmdline m mb) line) (hpath : ∃ i < 128, path i = 0) :
    Ends (fun fuel => parseInitCmdline fuel m path mb) (line.length + 1)
      (ParsesInit m mb path line) ↔ SeesOption path line := by
  obtain ⟨r, hr, htakes, hreads⟩ := scanCmdline_spec htext path
  have hrun : ∀ fuel, line.length + 1 ≤ fuel → parseInitCmdline fuel m path mb = some r := by
    intro fuel hfuel
    rw [parseInitCmdline, if_neg (not_or.2 ⟨hflag, hptr⟩)]
    exact hr fuel hfuel
  have hends : Ends (fun fuel => parseInitCmdline fuel m path mb) (line.length + 1)
      (ParsesInit m mb path line) ↔ ParsesInit m mb path line r := by
    constructor
    · rintro ⟨r', hr', hparses⟩
      cases (hrun _ (Nat.le_refl _)).symm.trans (hr' _ (Nat.le_refl _))
      exact hparses
    · exact fun hparses => ⟨r, hrun, hparses⟩
  rw [hends]
  constructor
  · intro hparses a b hfind
    right
    obtain ⟨hvalue, -⟩ := htakes.found a b hfind
    cases hword : keyedWord charSpace initPrefix line with
    | none => exact .inr ⟨rfl, (htakes.unchanged_iff hfind).1 (hparses.missing hword)⟩
    | some w => exact .inl ⟨w, rfl, (hparses.found w hword).unique hvalue⟩
  · intro hsees
    cases hfind : findKey initPrefix line with
    | none =>
      have hword := keyedWord_of_findKey_none (by decide) hfind charSpace
      refine ⟨fun w hw => ?_, fun _ => htakes.missing hfind, htakes.terminated hpath, hreads⟩
      rw [hword] at hw
      cases hw
    | some p =>
      obtain ⟨a, b⟩ := p
      obtain ⟨hvalue, -⟩ := htakes.found a b hfind
      rcases (hsees a b hfind).imp_left fun hstart =>
          keyedWord_of_findKey (by decide) (by decide) hfind hstart with
        hword | ⟨w', hword, heq⟩ | ⟨hword, hold⟩
      · refine ⟨fun w hw => ?_, fun hw => ?_, htakes.terminated hpath, hreads⟩
        · cases hword.symm.trans hw
          exact hvalue
        · cases hword.symm.trans hw
      · refine ⟨fun w hw => ?_, fun hw => ?_, htakes.terminated hpath, hreads⟩
        · cases hword.symm.trans hw
          rw [heq]
          exact hvalue
        · cases hword.symm.trans hw
      · refine ⟨fun w hw => ?_, fun _ => (htakes.unchanged_iff hfind).2 hold,
          htakes.terminated hpath, hreads⟩
        cases hword.symm.trans hw

theorem init_path_parsed_after_blank :
    let line := ascii "quiet init=/sh"
    Ends (fun fuel => parseInitCmdline fuel (bootedWith line) gInitPath 16) (line.length + 1)
      (ParsesInit (bootedWith line) 16 gInitPath line) := by
  intro line
  have hfind : findKey initPrefix line = some (ascii "quiet ", ascii "/sh") := by decide
  have hsees : SeesOption gInitPath line := by
    intro a b h
    cases hfind.symm.trans h
    exact .inl (.inr (by decide))
  have hflag : mbFlags (bootedWith line) 16 &&& (1 <<< 2) ≠ 0 := by decide
  have hptr : mbCmdline (bootedWith line) 16 ≠ 0 := by decide
  exact (init_path_parsed_iff hflag hptr (bootedWith_text (by decide)) ⟨11, by decide, by decide⟩).2
    hsees

/-- The key inside another one is taken for the option. -/
theorem rdinit_taken_for_init :
    let line := ascii "rdinit=/a init=/b"
    ¬ Ends (fun fuel => parseInitCmdline fuel (bootedWith line) gInitPath 16) (line.length + 1)
      (ParsesInit (bootedWith line) 16 gInitPath line) := by
  rintro line ⟨r, hr, hparses⟩
  have hrun : (parseInitCmdline (line.length + 1) (bootedWith line) gInitPath 16).map
      (fun r => r.1 1) = some 0x61 := by
    decide
  rw [show parseInitCmdline (line.length + 1) (bootedWith line) gInitPath 16 = some r
    from hr _ (Nat.le_refl _), Option.map_some, Option.some.injEq] at hrun
  have hvalue := hparses.found (ascii "/b") (by decide)
  exact absurd (hrun.symm.trans hvalue.2.2.1) (by decide)

end KernelCustom
