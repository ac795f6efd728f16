import KernelCustom.Builtins
import KernelCustom.ExpansionBounds
import KernelCustom.TokenizerBounds

namespace KernelCustom
open ByteStore CString WordSplit
set_option autoImplicit true

def lineMax : Nat := 256
def maxArgs : Nat := 32

/-- The string at an address; a loop over it cannot leave the address space. -/
def textFrom (m : Mem) (a : Nat) : Text :=
  Text.ofBytes (bytesAt m a (stopIndex (fun i => m (a + i) == 0) 4294967296 + 1))

/-- `argv[0]`, …, `argv[argc - 1]`. -/
def Tokens.args (t : Tokens) : List Text :=
  (List.range t.argc).map fun k => textFrom t.input ((t.argv k).getD 0)

/-- The process has gone through `sys_exit`, which does not return. -/
def UserShell.exited (s : UserShell) : Bool :=
  s.calls.any fun call => match call with
    | .exit _ => true
    | _ => false

/-- What `execute_command` does with the result of `execute_builtin`. -/
def finishCommand (cmd : Text) (r : Int × UserShell) : UserShell :=
  if r.2.exited then r.2
  else if r.1 = -1 then
    let s := r.2.call [.write cmd.chars, .write (ascii ": command not found\n")]
    { s with env := { s.env with lastExitStatus := 127 } }
  else { r.2 with env := { r.2.env with lastExitStatus := r.1 } }

/-- `execute_command` behind `tokenize`. -/
def UserShell.runArgs (s : UserShell) : List Text → UserShell
  | [] => s
  | cmd :: args => finishCommand cmd (executeBuiltin (cmd :: args) s)

/-- What the stack holds where `execute_command` puts its arrays. -/
structure StackJunk where
  expanded : Mem
  argv : Nat → Option Nat

/-- `execute_command`, with a bound on the rounds of its loops; `none` when it does not do. -/
def executeCommand (fuel : Nat) (junk : StackJunk) (cmdline : Mem) (s : UserShell) :
    Option UserShell := do
  let o ← expandVars fuel s.env cmdline junk.expanded lineMax
  let t ← tokenize fuel o.dst junk.argv maxArgs
  some (s.runArgs t.args)

/-- The word that a line runs: the first one if it ends in front of index 128, and else everything
from it on. -/
def commandWord (line : List UInt8) : Option (List UInt8) :=
  if line.dropWhile isBlank = [] then none
  else if leadingBlanks line + (firstWord line).1.length < 128 then some (firstWord line).1
  else some (line.dropWhile isBlank)

/-- A command without arguments. -/
def UserShell.runWord (s : UserShell) (w : List UInt8) : UserShell := s.runArgs [Text.ofBytes w]

theorem textAt_of_bytes (h : 0 ∉ l) (hl : ∀ k (hk : k < l.length), m (a + k) = l[k])
    (hnul : m (a + l.length) = 0) : TextAt m a l := by
  induction l generalizing a with
  | nil => exact hnul
  | cons b l ih =>
    have hsum : ∀ k, a + 1 + k = a + (k + 1) := fun k => by omega
    refine ⟨hl 0 (Nat.succ_pos _), (List.ne_of_not_mem_cons h).symm,
      ih (List.not_mem_of_not_mem_cons h) (fun k hk => ?_) ?_⟩
    · rw [hsum]
      exact hl (k + 1) (Nat.succ_lt_succ hk)
    · rwa [hsum]

theorem textAt_lineArray (h : 0 ∉ line) : TextAt (lineArray line) 0 line := by
  refine textAt_of_bytes h (fun k hk => ?_) ?_
  · rw [Nat.zero_add, lineArray, List.getD_eq_getElem _ _ hk]
  · rw [Nat.zero_add, lineArray, List.getD_eq_default _ _ (Nat.le_refl _)]

theorem textFrom_chars (h : TextAt m a l) (hl : l.length < 4294967296) :
    (textFrom m a).chars = l := by
  refine h.takeWhile (Nat.lt_succ_of_le ?_)
  by_contra hlt
  rw [Nat.not_le] at hlt
  have hend : (fun i => m (a + i) == 0) l.length = true := beq_iff_eq.2 h.end_eq
  have hstop := beq_iff_eq.1 (stopIndex_stop (fun i => m (a + i) == 0) hend hl)
  obtain ⟨hbyte, hne⟩ := (h.getElem? (Nat.le_of_lt hlt)).1 (List.getElem?_eq_getElem hlt)
  exact hne (hbyte.symm.trans hstop)

/-- A name with a blank in it is no builtin. -/
theorem executeBuiltin_of_blank {cmd : Text} (hb : b ∈ cmd.chars) (hblank : isBlank b = true)
    (args : List Text) (s : UserShell) : executeBuiltin (cmd :: args) s = (-1, s) := by
  have hne : ∀ name : String, ((word name).chars.all fun c => !isBlank c) = true →
      strcmp cmd (word name) ≠ 0 := by
    intro name hname heq
    rw [strcmp_eq_zero_iff] at heq
    rw [heq] at hb
    have := List.all_eq_true.1 hname b hb
    rw [hblank] at this
    cases this
  rw [executeBuiltin, if_neg (hne "help" (by decide)), if_neg (hne "clear" (by decide)),
    if_neg (hne "echo" (by decide)), if_neg (hne "exit" (by decide)),
    if_neg (hne "env" (by decide)), if_neg (hne "export" (by decide)),
    if_neg (hne "unset" (by decide)), if_neg (hne "history" (by decide)),
    if_neg (hne "true" (by decide)), if_neg (hne "false" (by decide))]

/-- The words that `tokenize` finds: none, or the word that the line runs and then, if that has a
blank in it, any others. -/
def ArgsOf (line : List UInt8) (args : List Text) : Prop :=
  (commandWord line = none ∧ args = []) ∨
    ∃ cmd rest, args = cmd :: rest ∧ commandWord line = some cmd.chars ∧
      (rest = [] ∨ ∃ b ∈ cmd.chars, isBlank b = true)

/-- The first pointer of a list that has one. -/
theorem Tokens.args_cons {t : Tokens} (hargc : 1 ≤ t.argc) (hargv : t.argv 0 = some p)
    (htext : TextAt t.input p w) (hw : w.length < 4294967296) :
    ∃ cmd rest, t.args = cmd :: rest ∧ cmd.chars = w ∧ (t.argc = 1 → rest = []) := by
  obtain ⟨n, hn⟩ : ∃ n, t.argc = n + 1 := ⟨t.argc - 1, by omega⟩
  refine ⟨textFrom t.input p, ((List.range n).map Nat.succ).map fun k =>
    textFrom t.input ((t.argv k).getD 0), ?_, textFrom_chars htext hw, fun hone => ?_⟩
  · rw [args, hn, List.range_succ_eq_map, List.map_cons, hargv]
    rfl
  · obtain rfl : n = 0 := by omega
    rfl

theorem length_dropBlanks (line : List UInt8) : (line.dropWhile isBlank).length ≤ line.length :=
  (List.dropWhile_suffix isBlank).length_le

/-- `tokenize` finds the word that the line runs. -/
theorem tokenize_args (h : TextAt input 0 line) (hf : line.length < fuel)
    (hlen : line.length < 4294967296) (argv : Nat → Option Nat) :
    ∃ t, tokenize fuel input argv maxArgs = some t ∧ ArgsOf line t.args := by
  obtain ⟨fuel, rfl⟩ : ∃ n, fuel = n + 1 := ⟨fuel - 1, by omega⟩
  change ∃ t, tokenize (fuel + 1) input argv 32 = some t ∧ _
  by_cases hd : line.dropWhile isBlank = []
  · rw [tokenize, tokenizeLoop_blank (t := ⟨0, argv, input⟩) h hf hd]
    exact ⟨_, rfl, .inl ⟨if_pos hd, rfl⟩⟩
  have htext : TextAt input (leadingBlanks line) (line.dropWhile isBlank) := by
    have hdrop := h.dropBlanks
    rwa [Nat.zero_add] at hdrop
  have hsplit : (firstWord line).1 ++ (firstWord line).2 = line.dropWhile isBlank :=
    cut_append _ _ _ _
  have hlength := length_line line
  have hrest := length_dropBlanks line
  have hpos := List.length_pos_iff.2 hd
  by_cases hcut : leadingBlanks line + (firstWord line).1.length < 128
  · -- the word is cut off, and the loop stops at the cut
    have hin : (afterFirst input argv line).input =
        Function.update input (leadingBlanks line + (firstWord line).1.length) 0 := if_pos hcut
    have hstop : (afterFirst input argv line).input
        (leadingBlanks line + (firstWord line).1.length) = 0 := by
      rw [hin, Function.update_self]
    have hword : TextAt (afterFirst input argv line).input (leadingBlanks line)
        (firstWord line).1 := by
      rw [hin]
      rw [← hsplit] at htext
      exact htext.cut
    have hcommand : commandWord line = some (firstWord line).1 := by
      rw [commandWord, if_neg hd, if_pos hcut]
    rw [tokenize_first h hf hd, tokenizeLoop_stop hstop (by omega)]
    obtain ⟨cmd, rest, hargs, hcmd, hone⟩ := Tokens.args_cons
      (t := { afterFirst input argv line with
        argv := Function.update (afterFirst input argv line).argv 1 none })
      (Nat.le_refl 1) rfl hword (by omega)
    exact ⟨_, rfl, .inr ⟨cmd, rest, hargs, hcmd ▸ hcommand, .inl (hone rfl)⟩⟩
  · -- nothing is cut off, so the first string goes on to the end of the line
    have hin : (afterFirst input argv line).input = input := if_neg hcut
    have hcommand : commandWord line = some (line.dropWhile isBlank) := by
      rw [commandWord, if_neg hd, if_neg hcut]
    obtain ⟨t, _, hall, -⟩ := tokenize_in_bounds h argv (by decide : 1 ≤ 32)
    obtain ⟨hrun, -⟩ := hall (fuel + 1) hf
    refine ⟨t, hrun, ?_⟩
    rw [tokenize_first h hf hd, Option.map_eq_some_iff] at hrun
    obtain ⟨t', hloop, rfl⟩ := hrun
    obtain ⟨hsame, hle, hkeep⟩ := tokenizeLoop_late (by omega) hloop
    have hfirst : Function.update t'.argv t'.argc none 0 = some (leadingBlanks line) := by
      rw [Function.update_of_ne (Nat.ne_of_lt hle), hkeep 0 Nat.one_pos]
      rfl
    have hinput : TextAt t'.input (leadingBlanks line) (line.dropWhile isBlank) := by
      rwa [hsame, hin]
    obtain ⟨cmd, rest, hargs, hcmd, hone⟩ := Tokens.args_cons
      (t := { t' with argv := Function.update t'.argv t'.argc none }) hle hfirst hinput (by omega)
    refine .inr ⟨cmd, rest, hargs, hcmd ▸ hcommand, ?_⟩
    rcases cut_rest Quoting.next Quoting.separates .outside (line.dropWhile isBlank) with
      hnil | ⟨a, l, hcons, hsep⟩
    · -- the word was the last one
      refine .inl (hone ?_)
      have hnil' : (firstWord line).2 = [] := hnil
      have hend : (afterFirst input argv line).input
          (leadingBlanks line + (firstWord line).1.length) = 0 := by
        have hz := htext.end_eq
        rw [hin, ← hz, ← hsplit, hnil', List.append_nil]
      rw [tokenizeLoop_stop hend (by omega)] at hloop
      rw [← Option.some.inj hloop]
      rfl
    · refine .inr ⟨a, ?_, ?_⟩
      · have hcons' : (firstWord line).2 = a :: l := hcons
        rw [hcmd, ← hsplit, hcons']
        exact List.mem_append_right _ List.mem_cons_self
      · simp only [Quoting.separates, Bool.decide_and, Bool.decide_eq_true, Bool.and_eq_true,
          decide_eq_true_eq] at hsep
        exact hsep.2

/-- With its words a line runs just the one. -/
theorem ArgsOf.runArgs (h : ArgsOf line args) (s : UserShell) :
    s.runArgs args = (commandWord line).elim s s.runWord := by
  rcases h with ⟨hnone, rfl⟩ | ⟨cmd, rest, rfl, hsome, hrest⟩
  · rw [hnone]
    rfl
  · rw [hsome, Option.elim_some, UserShell.runWord, Text.ofBytes_self]
    rcases hrest with rfl | ⟨b, hb, hblank⟩
    · rfl
    · rw [UserShell.runArgs, UserShell.runArgs, executeBuiltin_of_blank hb hblank,
        executeBuiltin_of_blank hb hblank]

/-- What a builtin without arguments does: it leaves the variables and the history, and exits only
with status 0. -/
structure BareRun (s : UserShell) (r : Int × UserShell) : Prop where
  env : r.2.env = s.env
  history : r.2.history = s.history
  result : r.1 = 0 ∨ r.1 = 1 ∨ r.1 = -1
  calls : ∃ l, r.2.calls = s.calls ++ l ∧ ∀ n, .exit n ∈ l → n = 0

theorem BareRun.call {s : UserShell} (hl : ∀ n, .exit n ∈ l → n = 0) :
    BareRun s (0, s.call l) := ⟨rfl, rfl, .inl rfl, l, rfl, hl⟩

theorem BareRun.quiet (s : UserShell) (hv : v = 0 ∨ v = 1 ∨ v = -1) : BareRun s (v, s) := by
  refine ⟨rfl, rfl, hv, [], (List.append_nil _).symm, fun n hn => ?_⟩
  cases hn

theorem executeBuiltin_bare (cmd : Text) (s : UserShell) :
    BareRun s (executeBuiltin [cmd] s) := by
  have hexit : ∀ l : List UserCall, (∀ c ∈ l, ∃ bytes, c = .write bytes) →
      ∀ n, .exit n ∈ l → n = 0 := by
    intro l hl n hn
    obtain ⟨bytes, h⟩ := hl _ hn
    cases h
  rw [executeBuiltin]
  split
  · refine .call (hexit _ fun c hc => ?_)
    obtain ⟨line, -, rfl⟩ := List.mem_map.1 hc
    exact ⟨_, rfl⟩
  split
  · refine .call fun n hn => ?_
    cases List.mem_singleton.1 hn
  split
  · refine .call (hexit _ fun c hc => ?_)
    exact ⟨_, List.mem_singleton.1 hc⟩
  split
  · refine .call fun n hn => ?_
    cases List.mem_singleton.1 hn
    rfl
  split
  · refine .call (hexit _ fun c hc => ?_)
    obtain ⟨i, -, hc⟩ := List.mem_flatMap.1 hc
    simp only [List.mem_cons, List.not_mem_nil, or_false] at hc
    rcases hc with rfl | rfl <;> exact ⟨_, rfl⟩
  split
  · exact .quiet s (.inl rfl)
  split
  · exact .quiet s (.inl rfl)
  split
  · refine .call (hexit _ fun c hc => ?_)
    obtain ⟨i, -, hc⟩ := List.mem_flatMap.1 hc
    simp only [List.mem_cons, List.not_mem_nil, or_false] at hc
    rcases hc with rfl | rfl | rfl | rfl | rfl <;> exact ⟨_, rfl⟩
  split
  · exact .quiet s (.inl rfl)
  split
  · exact .quiet s (.inr (.inl rfl))
  · exact .quiet s (.inr (.inr rfl))

/-- What a command line changes: the status, and what has been written. -/
structure UserShell.Commanded (s s' : UserShell) : Prop where
  env : s'.env = { s.env with lastExitStatus := s'.env.lastExitStatus }
  status : s'.env.lastExitStatus = s.env.lastExitStatus ∨ s'.env.lastExitStatus = 0 ∨
    s'.env.lastExitStatus = 1 ∨ s'.env.lastExitStatus = 127
  history : s'.history = s.history
  calls : ∃ l, s'.calls = s.calls ++ l ∧ ∀ n, .exit n ∈ l → n = 0

theorem UserShell.Commanded.refl (s : UserShell) : s.Commanded s := by
  refine ⟨rfl, .inl rfl, rfl, [], (List.append_nil _).symm, fun n hn => ?_⟩
  cases hn

theorem BareRun.finish {s : UserShell} (h : BareRun s r) (cmd : Text) :
    s.Commanded (finishCommand cmd r) := by
  obtain ⟨henv, hhist, hresult, l, hcalls, hexit⟩ := h
  rw [finishCommand]
  split
  · exact ⟨by rw [henv], .inl (by rw [henv]), hhist, l, hcalls, hexit⟩
  split
  · refine ⟨?_, .inr (.inr (.inr rfl)), hhist,
      l ++ [.write cmd.chars, .write (ascii ": command not found\n")], ?_, ?_⟩
    · rw [← henv]
      rfl
    · rw [← List.append_assoc, ← hcalls]
      rfl
    · intro n hn
      rcases List.mem_append.1 hn with hn | hn
      · exact hexit n hn
      · simp only [List.mem_cons, reduceCtorEq, List.not_mem_nil, or_self] at hn
  · next hret =>
    refine ⟨by rw [← henv], .inr ?_, hhist, l, hcalls, hexit⟩
    rcases hresult with hv | hv | hv
    · exact .inl hv
    · exact .inr (.inl hv)
    · exact (hret hv).elim

/-- No command gets an argument, so none sets a variable. -/
theorem UserShell.runWord_commanded (s : UserShell) (w : List UInt8) :
    s.Commanded (s.runWord w) := (executeBuiltin_bare (Text.ofBytes w) s).finish _

theorem UserShell.command_commanded (s : UserShell) (line : List UInt8) :
    s.Commanded ((commandWord line).elim s s.runWord) := by
  cases commandWord line with
  | none => exact .refl s
  | some w => exact s.runWord_commanded w

/-- A line that is expanded within bounds fits into the array. -/
theorem ExpandsWithin.text {e : Environment} (h : ExpandsWithin e src dst size n) :
    ∃ o text, (∀ fuel, n < fuel → expandVars fuel e src dst size = some o) ∧
      TextAt o.dst 0 text ∧ text.length < size := by
  obtain ⟨o, log, hrun, hwithin, text, htext, hlength⟩ := h
  refine ⟨o, text, fun fuel hf => (hrun fuel hf).1, htext, ?_⟩
  have hlog := (hrun (n + 1) (Nat.lt_succ_self n)).2
  rw [expandVarsLog, Option.map_eq_some_iff] at hlog
  obtain ⟨r, -, heq⟩ := hlog
  obtain ⟨rfl, rfl⟩ := Prod.mk.inj heq
  rw [hlength]
  exact hwithin (.writeDst r.1.di) (List.mem_append_right _ List.mem_cons_self)

/-- `execute_command` of a line runs the one word of its expansion. -/
structure ExecutesWord (junk : StackJunk) (cmdline : Mem) (s : UserShell) (text : List UInt8)
    (s' : UserShell) : Prop where
  short : text.length < lineMax
  expands : ∀ fuel, lineMax ≤ fuel → ∃ o,
    expandVars fuel s.env cmdline junk.expanded lineMax = some o ∧ TextAt o.dst 0 text
  runs : ∀ fuel, lineMax ≤ fuel → executeCommand fuel junk cmdline s = some s'
  word : s' = (commandWord text).elim s s.runWord
  commanded : s.Commanded s'

/-- A line that stays in the arrays is executed, but only its first word gets to a builtin: the
variables and the history stay as they are, the status becomes 0, 1 or 127, and `exit` has the
status 0. -/
theorem execute_command_runs_one_word (junk : StackJunk) (s : UserShell)
    (h : TextAt cmdline 0 line) (hline : line.length < lineMax)
    (hs : RoundsStay s.env 0 (lineMax - 1) line) :
    ∃ text s', ExecutesWord junk cmdline s text s' := by
  have hexpands := (expandVars_in_bounds_iff s.env cmdline junk.expanded lineMax line h
    (by decide)).2 hs
  obtain ⟨o, text, hrun, htext, hshort⟩ := hexpands.text
  refine ⟨text, _, hshort, fun fuel hf => ⟨o, hrun fuel (by omega), htext⟩, fun fuel hf => ?_, rfl,
    s.command_commanded text⟩
  have hlt : lineMax < 4294967296 := by decide
  obtain ⟨t, ht, hargs⟩ := tokenize_args htext (Nat.lt_of_lt_of_le hshort hf)
    (Nat.lt_trans hshort hlt) junk.argv
  simp only [executeCommand, hrun fuel (by omega), Option.bind_eq_bind, Option.bind_some, ht,
    hargs.runArgs]

/-- `export A=1` is the command `export` without an argument. -/
theorem execute_command_runs_export :
    ∃ text s', ExecutesWord ⟨fun _ => 0, fun _ => none⟩ (lineArray (ascii "export A=1"))
      ⟨.empty 0, .empty, []⟩ text s' := by
  have htext : TextAt (lineArray (ascii "export A=1")) 0 (ascii "export A=1") :=
    textAt_lineArray (by decide)
  exact execute_command_runs_one_word _ _ htext (by decide) (by decide)

end KernelCustom
