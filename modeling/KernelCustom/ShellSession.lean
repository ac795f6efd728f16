import KernelCustom.ExecuteCommand
import KernelCustom.ReadLineEditing
import KernelCustom.Runs

namespace KernelCustom
open ByteStore CString LoggedArray LineEditor RecentList Runs
set_option autoImplicit true

/-- The user shell while `read_line` waits for a key. -/
structure ShellSession where
  shell : UserShell
  reading : ReadLine

/-- A key, and what the stack holds behind the frame of `_start` then. -/
structure ShellKey where
  code : UInt8
  junk : StackJunk

/-- `show_prompt`, and `read_line` up to its first key. -/
def UserShell.prompt (s : UserShell) (line : Int → UInt8) : ShellSession :=
  ⟨s, (ReadLine.start s.history line).showPrompt s.env⟩

/-- The variables that `_start` sets. -/
def startEnv : Environment :=
  ((((Environment.empty 0).envSet (word "SHELL") (word "antigravity-sh")).envSet
    (word "USER") (word "user")).envSet (word "HOME") (word "/")).envSet (word "PS1") (word "$ ")

/-- `_start` up to the first key; `line` is what the stack holds. -/
def ShellSession.boot (line : Int → UInt8) : ShellSession :=
  UserShell.prompt
    ⟨startEnv, .empty,
      [.write (ascii "Antigravity OS Shell\n"), .write (ascii "Type 'help' for commands.\n\n")]⟩
    line

/-- The shell when `read_line` has returned. -/
def ShellSession.entered (σ : ShellSession) : UserShell × (Int → UInt8) :=
  let r := σ.reading.enterKey σ.shell.history
  ({ σ.shell with history := r.2, calls := σ.shell.calls ++ r.1.output }, r.1.buf.bytes)

/-- Enter: the loop of `_start` goes on behind `read_line`. -/
def ShellSession.enter (fuel : Nat) (junk : StackJunk) (σ : ShellSession) : Option ShellSession :=
  let line := σ.entered.2
  if line 0 = 0 then some (σ.entered.1.prompt line)
  else
    (executeCommand fuel junk (fun i => line i) σ.entered.1).map fun s =>
      if s.exited then ⟨s, σ.reading⟩ else s.prompt line

/-- One key. Behind `sys_exit` none is read any more. -/
def ShellSession.key (fuel : Nat) (σ : ShellSession) (k : ShellKey) : Option ShellSession :=
  if σ.shell.exited then some σ
  else if k.code = 10 then σ.enter fuel k.junk
  else some { σ with reading := σ.reading.key σ.shell.env σ.shell.history lineMax k.code }

/-- A key that `sys_read_raw` can return; the line that Enter ends stays in the arrays of
`expand_vars`. -/
def ShellSession.Stays (σ : ShellSession) (k : ShellKey) : Prop :=
  k.code ≠ 0 ∧ (σ.shell.exited = false → k.code = 10 →
    RoundsStay σ.shell.env 0 (lineMax - 1) (arrayText σ.entered.2))

/-- What the keys mean to a user who knows the editor: the lines to go back to, and the text with
the cursor. The right key follows the code's own rule, a jump to the end of the line. -/
structure UserView where
  lines : List (List UInt8)
  recalled : Recall UInt8 255

def UserView.boot : UserView := ⟨[], ⟨.empty, 0⟩⟩

def UserView.key (v : UserView) (c : UInt8) : UserView :=
  if c = 10 then
    let lines := keepRecent 16 notBlank v.lines v.recalled.editor.text
    ⟨lines, ⟨.empty, lines.length⟩⟩
  else { v with recalled := readKey v.lines v.recalled c }

/-- No call to `sys_exit` is among some calls. -/
def NoExit (calls : List UserCall) : Prop := ∀ n, .exit n ∉ calls

theorem NoExit.append (h : NoExit l) (h' : NoExit l') : NoExit (l ++ l') := by
  intro n hn
  rcases List.mem_append.1 hn with hn | hn
  · exact h n hn
  · exact h' n hn

theorem NoExit.write (bytes : List UInt8) : NoExit [.write bytes] := by
  intro n hn
  cases List.mem_singleton.1 hn

theorem NoExit.replicate (k : Nat) (bytes : List UInt8) :
    NoExit (List.replicate k (.write bytes)) := by
  intro n hn
  cases List.eq_of_mem_replicate hn

theorem exited_eq_false (h : NoExit s.calls) : UserShell.exited s = false := by
  rw [UserShell.exited, List.any_eq_false]
  intro call hcall
  cases call with
  | exit n => exact (h n hcall).elim
  | write bytes => exact Bool.false_ne_true
  | clear => exact Bool.false_ne_true

theorem noExit_of_exited (h : UserShell.exited s = false) : NoExit s.calls := by
  intro n hn
  rw [UserShell.exited, List.any_eq_false] at h
  exact h _ hn rfl

section
variable {r : ReadLine} {h : History}

theorem ReadLine.noExit_write (hr : NoExit r.output) (bytes : List UInt8) :
    NoExit (r.write bytes).output := hr.append (.write bytes)

theorem ReadLine.noExit_writeTimes (hr : NoExit r.output) (n : Int) (bytes : List UInt8) :
    NoExit (r.writeTimes n bytes).output := hr.append (.replicate n.toNat bytes)

theorem ReadLine.noExit_backspaceN (hr : NoExit r.output) (n : Int) :
    NoExit (r.backspaceN n).output :=
  noExit_writeTimes (noExit_writeTimes (noExit_writeTimes hr n [8]) n [32]) n [8]

theorem ReadLine.noExit_showPrompt (hr : NoExit r.output) (e : Environment) :
    NoExit (r.showPrompt e).output := by
  rw [ReadLine.showPrompt]
  split
  · exact noExit_write hr _
  · exact noExit_write hr _

/-- `read_line` writes and clears the screen, but it never exits. -/
theorem ReadLine.noExit_key (hr : NoExit r.output) (e : Environment) (h : History) (n : Int)
    (c : UInt8) : NoExit (r.key e h n c).output := by
  rw [ReadLine.key]
  split
  · exact hr
  split
  · rw [upKey]
    split
    · exact noExit_write (noExit_backspaceN (r := { r with histIdx := r.histIdx - 1 }) hr r.len) _
    · exact hr
  split
  · have hback := noExit_backspaceN (r := { r with histIdx := r.histIdx + 1 }) hr r.len
    simp only [downKey]
    split
    · split
      · exact hback
      · exact noExit_write hback _
    · exact hr
  split
  · rw [leftKey]
    split
    · exact noExit_write (r := { r with pos := r.pos - 1 }) hr [8]
    · exact hr
  split
  · rw [rightKey]
    split
    · exact noExit_writeTimes (r := { r.writeFrom r.pos with pos := r.len })
        (noExit_write hr _) _ [8]
    · exact hr
  split
  · have hclear : NoExit [UserCall.clear] := fun n hn => by cases List.mem_singleton.1 hn
    have hprompt := noExit_showPrompt (r := { r with output := r.output ++ [.clear] })
      (hr.append hclear) e
    exact noExit_writeTimes (noExit_write hprompt _) _ [8]
  split
  · simp only [backspaceKey]
    split
    · exact ((((hr.append (.write _)).append (.write _)).append (.write _))).append (.replicate _ _)
    · exact hr
  · simp only [insertKey]
    split
    · exact (hr.append (.write _)).append (.replicate _ _)
    · exact hr

end

/-- `expand_vars` and `tokenize` stay in the arrays of `execute_command`. -/
def CommandWithin (e : Environment) (junk : StackJunk) (cmdline : Mem) (line : List UInt8) :
    Prop :=
  ExpandsWithin e cmdline junk.expanded lineMax line.length ∧
    ∃ o t accesses, ∀ fuel, lineMax ≤ fuel →
      expandVars fuel e cmdline junk.expanded lineMax = some o ∧
      tokenizeLog fuel o.dst junk.argv maxArgs = some (t, accesses) ∧
      (∀ i ∈ accesses, i < lineMax) ∧ t.argc < maxArgs

theorem commandWithin_of_stays {e : Environment} (junk : StackJunk) (h : TextAt cmdline 0 line)
    (hline : line.length < lineMax) (hs : RoundsStay e 0 (lineMax - 1) line) :
    CommandWithin e junk cmdline line := by
  have hexpands := (expandVars_in_bounds_iff e cmdline junk.expanded lineMax line h
    (by decide)).2 hs
  obtain ⟨o, text, hrun, htext, hshort⟩ := hexpands.text
  obtain ⟨t, accesses, hall, hwithin, hargc, -⟩ :=
    tokenize_in_bounds htext junk.argv (by decide : 1 ≤ maxArgs)
  refine ⟨hexpands, o, t, accesses, fun fuel hf => ⟨hrun fuel (by omega),
    (hall fuel (by omega)).2, fun i hi => ?_, hargc⟩⟩
  exact Nat.lt_of_le_of_lt (hwithin i hi) hshort

/-- The line as `execute_command` gets it. -/
theorem spells_textAt {a : Int → UInt8} (h : Spells a l) : TextAt (fun i => a i) 0 l := by
  refine textAt_of_bytes h.no_nul (fun k hk => ?_) ?_
  · rw [Nat.zero_add, h.begins k hk, List.getD_eq_getElem _ _ hk]
  · rw [Nat.zero_add]
    exact h.nul

theorem mem_keepRecent {l : List (List UInt8)} (h : y ∈ keepRecent n p l x) : y ∈ l ∨ y = x := by
  rw [keepRecent] at h
  split at h
  · rw [RecentList.push] at h
    split at h
    · simpa using h
    · rcases List.mem_append.1 h with h | h
      · exact .inl (List.mem_of_mem_tail h)
      · exact .inr (List.mem_singleton.1 h)
  · exact .inl h

/-- What holds of the shell all along: it has the variables of `_start`, and exits only with 0. -/
structure UserShell.Sound (s : UserShell) : Prop where
  env : s.env = { startEnv with lastExitStatus := s.env.lastExitStatus }
  status : s.env.lastExitStatus = 0 ∨ s.env.lastExitStatus = 1 ∨ s.env.lastExitStatus = 127
  exits : ∀ n, .exit n ∈ s.calls → n = 0

/-- The shell holds what the user has in mind. -/
structure ShellSession.Shows (σ : ShellSession) (v : UserView) : Prop where
  history : HistoryOf σ.shell.history v.lines
  recent : v.lines.length ≤ 16
  reading : σ.reading.Stands v.lines v.recalled

/-- The invariant of a session, `codes` being the keys so far. -/
structure ShellSession.Invariant (σ : ShellSession) (codes : List UInt8) : Prop where
  sound : σ.shell.Sound
  quiet : NoExit σ.reading.output
  shows : σ.shell.exited = false → σ.Shows (codes.foldl UserView.key .boot)

theorem UserShell.prompt_quiet (s : UserShell) (line : Int → UInt8) :
    NoExit (s.prompt line).reading.output :=
  ReadLine.noExit_showPrompt (fun n hn => by cases hn) s.env

theorem UserShell.prompt_stands {s : UserShell} (h : HistoryOf s.history lines)
    (line : Int → UInt8) : (s.prompt line).reading.Stands lines ⟨.empty, lines.length⟩ := by
  have hstart := ReadLine.Stands.start h line
  change (ReadLine.showPrompt _ s.env).Stands lines _
  rw [ReadLine.showPrompt]
  split
  · exact hstart.printed _
  · exact hstart.printed _

theorem startEnv_status : startEnv.lastExitStatus = 0 := rfl

theorem ShellSession.boot_invariant (line : Int → UInt8) : (boot line).Invariant [] := by
  have hhist : HistoryOf History.empty [] := ⟨Lists.empty _, fun l hl => by cases hl⟩
  refine ⟨⟨rfl, .inl startEnv_status, fun n hn => ?_⟩, UserShell.prompt_quiet _ _, fun _ =>
    ⟨hhist, Nat.zero_le _, UserShell.prompt_stands hhist line⟩⟩
  have hcalls : NoExit (boot line).shell.calls := NoExit.append (.write _) (.write _)
  exact (hcalls n hn).elim

theorem UserView.key_enter (v : UserView) :
    v.key 10 = ⟨keepRecent 16 notBlank v.lines v.recalled.editor.text,
      ⟨.empty, (keepRecent 16 notBlank v.lines v.recalled.editor.text).length⟩⟩ := if_pos rfl

/-- The shell behind `read_line`. -/
theorem ShellSession.Shows.entered {σ : ShellSession} (h : σ.Shows v) :
    Spells σ.entered.2 v.recalled.editor.text ∧
      HistoryOf σ.entered.1.history (v.key 10).lines ∧ (v.key 10).lines.length ≤ 16 := by
  have hspells := h.reading.enterKey σ.shell.history
  have hlists := h.history.lists.add h.recent hspells
  rw [UserView.key_enter]
  refine ⟨hspells, ⟨hlists, fun l hl => ?_⟩, ?_⟩
  · rcases mem_keepRecent hl with hl | rfl
    · exact h.history.short l hl
    · exact v.recalled.editor.length_le
  · exact length_foldl_keepRecent_le h.recent (by decide) notBlank [v.recalled.editor.text]

theorem ShellSession.Invariant.entered {σ : ShellSession} (h : σ.Invariant codes) :
    ∀ n, .exit n ∈ σ.entered.1.calls → n = 0 := by
  intro n hn
  have hquiet : NoExit (σ.reading.enterKey σ.shell.history).1.output := h.quiet.append (.write [10])
  rcases List.mem_append.1 hn with hn | hn
  · exact h.sound.exits n hn
  · exact (hquiet n hn).elim

theorem ShellSession.Invariant.entered_sound {σ : ShellSession} (h : σ.Invariant codes) :
    σ.entered.1.Sound := ⟨h.sound.env, h.sound.status, h.entered⟩

/-- A command leaves the shell sound. -/
theorem UserShell.Sound.commanded {s s' : UserShell} (hs : s.Sound) (h : s.Commanded s') :
    s'.Sound := by
  obtain ⟨henv, hstatus, hhist, l, hcalls, hexit⟩ := h
  refine ⟨henv.trans ?_, ?_, fun n hn => ?_⟩
  · rw [hs.env]
  · rcases hstatus with heq | hstatus
    · rw [heq]
      exact hs.status
    · exact hstatus
  · rw [hcalls] at hn
    rcases List.mem_append.1 hn with hn | hn
    · exact hs.exits n hn
    · exact hexit n hn

/-- Behind Enter the loop of `_start` has shown the prompt, or the shell has exited. -/
theorem UserShell.Sound.prompt {s : UserShell} {v : UserView} (hs : s.Sound)
    (hhist : HistoryOf s.history (v.key 10).lines) (hrecent : (v.key 10).lines.length ≤ 16)
    (hcodes : codes.foldl UserView.key .boot = v.key 10) (line : Int → UInt8) :
    (s.prompt line).Invariant codes := by
  refine ⟨hs, UserShell.prompt_quiet s line, fun _ => ?_⟩
  rw [hcodes]
  have hstands := UserShell.prompt_stands hhist line
  rw [UserView.key_enter] at hhist hrecent hstands ⊢
  exact ⟨hhist, hrecent, hstands⟩

/-- What the code needs when Enter ends a line. -/
def ShellSession.EnterWithin (σ : ShellSession) (k : ShellKey) : Prop :=
  σ.shell.exited = false → k.code = 10 →
    CommandWithin σ.shell.env k.junk (fun i => σ.entered.2 i) (arrayText σ.entered.2)

/-- One key. -/
theorem ShellSession.Invariant.key {σ : ShellSession} (h : σ.Invariant codes) (hf : lineMax ≤ fuel)
    (hk : σ.Stays k) :
    σ.EnterWithin k ∧ ∃ σ', σ.key fuel k = some σ' ∧ σ'.Invariant (codes ++ [k.code]) := by
  obtain ⟨hne, hstays⟩ := hk
  have hcodes : (codes ++ [k.code]).foldl UserView.key .boot =
      (codes.foldl UserView.key .boot).key k.code := List.foldl_concat _ _ _ _
  by_cases hexited : σ.shell.exited = true
  · refine ⟨fun hno => ?_, σ, if_pos hexited, h.sound, h.quiet, fun hno => ?_⟩
    · rw [hexited] at hno
      cases hno
    · rw [hexited] at hno
      cases hno
  have hno : σ.shell.exited = false := Bool.eq_false_iff.2 hexited
  have hshows := h.shows hno
  rw [ShellSession.key, if_neg hexited]
  by_cases henter : k.code = 10
  · obtain ⟨hspells, hhist, hrecent⟩ := hshows.entered
    have hlength := (codes.foldl UserView.key .boot).recalled.editor.length_le
    have htext := spells_textAt hspells
    have hline : (codes.foldl UserView.key .boot).recalled.editor.text.length < lineMax :=
      Nat.lt_succ_of_le hlength
    have hstay := hstays hno henter
    rw [hspells.text] at hstay
    rw [henter] at hcodes
    refine ⟨fun _ _ => ?_, ?_⟩
    · rw [hspells.text]
      exact commandWithin_of_stays k.junk htext hline hstay
    rw [if_pos henter, henter, ShellSession.enter]
    by_cases hblank : σ.entered.2 0 = 0
    · exact ⟨_, if_pos hblank, h.entered_sound.prompt hhist hrecent hcodes _⟩
    · obtain ⟨text, s', hword⟩ :=
        execute_command_runs_one_word k.junk σ.entered.1 htext hline hstay
      have hsound := h.entered_sound.commanded hword.commanded
      simp only [if_neg hblank, hword.runs fuel hf, Option.map_some]
      refine ⟨_, rfl, ?_⟩
      by_cases hend : s'.exited = true
      · rw [if_pos hend]
        refine ⟨hsound, h.quiet, fun hno' => ?_⟩
        rw [hend] at hno'
        cases hno'
      · rw [if_neg hend]
        rw [← hword.commanded.history] at hhist
        exact hsound.prompt hhist hrecent hcodes _
  · refine ⟨fun _ hk => (henter hk).elim, ?_⟩
    rw [if_neg henter]
    refine ⟨_, rfl, h.sound, ReadLine.noExit_key h.quiet _ _ _ _, fun _ => ?_⟩
    rw [hcodes, UserView.key, if_neg henter]
    exact ⟨hshows.history, hshows.recent, hshows.reading.key hshows.history _ hne⟩

/-- Every session whose lines stay in the arrays of `expand_vars`: the shell comes to its next key
or to `sys_exit`, stays in its arrays, and as long as it runs it holds what the user has in mind;
it keeps the variables of `_start`, and `exit` never gets a status. -/
theorem shell_session_sound (line : Int → UInt8) (hf : lineMax ≤ fuel) (keys : List ShellKey)
    (h : EachPartial (ShellSession.key fuel) ShellSession.Stays (.boot line) keys) :
    EachPartial (ShellSession.key fuel) ShellSession.EnterWithin (.boot line) keys ∧
      ∃ σ, keys.foldlM (ShellSession.key fuel) (.boot line) = some σ ∧ σ.shell.Sound ∧
        (σ.shell.exited = false →
          σ.Shows ((keys.map ShellKey.code).foldl UserView.key .boot) ∧
            σ.reading.InBounds σ.shell.history) := by
  have hboot : (ShellSession.boot line).Invariant (([] : List ShellKey).map ShellKey.code) :=
    ShellSession.boot_invariant line
  have hrun := foldlM_of_eachPartial (ShellSession.key fuel)
    (I := fun σ done => σ.Invariant (done.map ShellKey.code))
    (fun σ done k hinv hk => by
      obtain ⟨hwithin, σ', hσ', hinv'⟩ := hinv.key hf hk
      refine ⟨hwithin, σ', hσ', ?_⟩
      rwa [List.map_append])
    hboot keys h
  obtain ⟨hall, σ, hσ, hinv⟩ := hrun
  rw [List.nil_append] at hinv
  refine ⟨hall, σ, hσ, hinv.sound, fun hno => ⟨hinv.shows hno, ?_⟩⟩
  exact (hinv.shows hno).reading.inBounds (hinv.shows hno).history

/-- `a` and Enter. -/
theorem shell_session_sound_command :
    EachPartial (ShellSession.key lineMax) ShellSession.EnterWithin (.boot fun _ => 0)
        [⟨97, ⟨fun _ => 0, fun _ => none⟩⟩, ⟨10, ⟨fun _ => 0, fun _ => none⟩⟩] ∧
      ∃ σ, [⟨97, ⟨fun _ => 0, fun _ => none⟩⟩, ⟨10, ⟨fun _ => 0, fun _ => none⟩⟩].foldlM
          (ShellSession.key lineMax) (.boot fun _ => 0) = some σ ∧ σ.shell.Sound ∧
        (σ.shell.exited = false →
          σ.Shows (([⟨97, ⟨fun _ => 0, fun _ => none⟩⟩, ⟨10, ⟨fun _ => 0, fun _ => none⟩⟩].map
              ShellKey.code).foldl UserView.key .boot) ∧
            σ.reading.InBounds σ.shell.history) := by
  refine shell_session_sound _ (Nat.le_refl _) _ ⟨⟨by decide, fun _ h => ?_⟩, fun σ hσ => ?_⟩
  · cases h
  · cases hσ
    refine ⟨⟨by decide, fun _ _ => ?_⟩, fun _ _ => trivial⟩
    decide +kernel

end KernelCustom
