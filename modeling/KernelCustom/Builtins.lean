import KernelCustom.ReadLine

namespace KernelCustom
open ByteStore CString
set_option autoImplicit true

/-- The static variables of the user shell, and the system calls it has made. -/
structure UserShell where
  env : Environment
  history : History
  calls : List UserCall

def UserShell.call (s : UserShell) (l : List UserCall) : UserShell :=
  { s with calls := s.calls ++ l }

/-- The string in a row of a table. -/
def rowText (m : Mem) (i : Nat) : Text := Text.ofBytes (bytesAt m (envValMax * i) envValMax)

/-- `cmd_help`. -/
def cmdHelp : List UserCall :=
  ["Commands:\n", "  help       Show this help\n", "  clear      Clear screen\n",
    "  echo [..]  Print args\n", "  exit [n]   Exit shell\n", "  env        List env vars\n",
    "  export n=v Set env var\n", "  unset n    Unset env var\n", "  history    Show history\n",
    "  true/false Return 0/1\n"].map fun line => .write (ascii line)

/-- `env_list`. -/
def Environment.envList (e : Environment) : List UserCall :=
  (List.range e.envCount).flatMap fun i => [.write (e.row i), .write (ascii "\n")]

/-- `history_list`. -/
def History.list (h : History) : List UserCall :=
  (List.range h.count.toNat).flatMap fun i =>
    [.write (ascii "  "), .write (ascii (toString (i + 1))), .write (ascii "  "),
      .write (arrayText (h.rows i)), .write (ascii "\n")]

def echo : List Text → List UserCall
  | [] => [.write (ascii "\n")]
  | [arg] => [.write arg.chars, .write (ascii "\n")]
  | arg :: args => .write arg.chars :: .write (ascii " ") :: echo args

def isDigit (c : UInt8) : Bool := 0x30 ≤ c ∧ c ≤ 0x39

/-- The digits in front of the argument of `exit`. The `int` of the code overflows where the number
is `2 ^ 31` or more; here it does not. -/
def exitStatus (arg : Text) : Int :=
  (arg.chars.takeWhile isDigit).foldl (fun status c => status * 10 + (c.toNat - 0x30)) 0

/-- `export` cuts an argument at its first `=`; without one it does nothing. -/
def Environment.exportArg (e : Environment) (arg : Text) : Environment :=
  let name := arg.chars.takeWhile (· ≠ charEquals)
  if name.length < arg.chars.length then e.envSet (Text.ofBytes name) (arg.drop (name.length + 1))
  else e

/-- The search of `unset`: the row has a `=`, and the whole row is compared with the name. -/
def Environment.unsetMatches (e : Environment) (name : Text) (i : Nat) : Bool :=
  let j := stopIndex (fun j => e.rowByte i j == 0 || e.rowByte i j == charEquals) envValMax
  e.rowByte i j = charEquals ∧ strcmp (rowText e.envVars i) name = 0

/-- `for (; k < env_count - 1; k++) strcpy(env_vars[k], env_vars[k + 1])`, that many rounds. -/
def moveRows (m : Mem) : Nat → Nat → Mem
  | 0, _ => m
  | n + 1, k =>
    moveRows (putBytes m (envValMax * k) ((rowText m (k + 1)).chars ++ [0])) n (k + 1)

/-- `unset` of one name. -/
def Environment.unset (e : Environment) (name : Text) : Environment :=
  match (List.range e.envCount).find? (e.unsetMatches name) with
  | some i =>
    { e with envVars := moveRows e.envVars (e.envCount - 1 - i) i, envCount := e.envCount - 1 }
  | none => e

/-- `execute_builtin`; a command that it does not know gives -1. -/
def executeBuiltin (argv : List Text) (s : UserShell) : Int × UserShell :=
  match argv with
  | [] => (0, s)
  | cmd :: args =>
    if strcmp cmd (word "help") = 0 then (0, s.call cmdHelp)
    else if strcmp cmd (word "clear") = 0 then (0, s.call [.clear])
    else if strcmp cmd (word "echo") = 0 then (0, s.call (echo args))
    else if strcmp cmd (word "exit") = 0 then
      (0, s.call [.exit (args.head?.elim 0 exitStatus)])
    else if strcmp cmd (word "env") = 0 then (0, s.call s.env.envList)
    else if strcmp cmd (word "export") = 0 then
      (0, { s with env := args.foldl Environment.exportArg s.env })
    else if strcmp cmd (word "unset") = 0 then
      (0, { s with env := args.head?.elim s.env s.env.unset })
    else if strcmp cmd (word "history") = 0 then (0, s.call s.history.list)
    else if strcmp cmd (word "true") = 0 then (0, s)
    else if strcmp cmd (word "false") = 0 then (1, s)
    else (-1, s)

/-- The tables that `env_set` and `unset` lead to. -/
inductive Environment.Reachable : Environment → Prop
  | boot (status : Int) : Reachable (.empty status)
  | set (name value : Text) : Reachable e → Reachable (e.envSet name value)
  | unset (name : Text) : Reachable e → Reachable (e.unset name)
  | status (v : Int) : Reachable e → Reachable { e with lastExitStatus := v }

/-- A name has gone from a table and nothing else has changed. -/
structure Environment.UnsetsExactly (e e' : Environment) (name : Text) : Prop where
  removed : name.chars ≠ [charQuestion] → TextAt (e'.envGet name) 0 []
  rows : e'.rows = e.rows.filter fun row => row.takeWhile (· ≠ charEquals) ≠ name.chars
  values : ∀ other : Text, other.chars ≠ name.chars → e'.value other.chars = e.value other.chars
  count : e'.envCount = if name.chars ∈ e.names then e.envCount - 1 else e.envCount

theorem mem_bytesAt_of (h : m (a + k) = b) (hk : k < n) : b ∈ bytesAt m a n := by
  induction k generalizing a n with
  | zero =>
    obtain ⟨n, rfl⟩ : ∃ d, n = d + 1 := ⟨n - 1, by omega⟩
    rw [bytesAt, ← h]
    exact List.mem_cons_self
  | succ k ih =>
    obtain ⟨n, rfl⟩ : ∃ d, n = d + 1 := ⟨n - 1, by omega⟩
    refine List.mem_cons_of_mem _ (ih ?_ (by omega))
    rwa [Nat.add_assoc, Nat.add_comm 1]

theorem putBytes_last (m : Mem) (a : Nat) (l : List UInt8) :
    putBytes m a (l ++ [0]) (a + l.length) = 0 := by
  rw [putBytes_append]
  exact Function.update_self _ _ _

/-- The first rows of a table are strings. -/
def RowsEnd (m : Mem) (n : Nat) : Prop :=
  ∀ i, i < n → 0 ∈ bytesAt m (envValMax * i) envValMax

theorem RowsEnd.putBytes (h : RowsEnd m n) (hfit : o + (l ++ [0]).length ≤ envValMax)
    (hn : n' ≤ n ∨ n' = n + 1 ∧ i = n) :
    RowsEnd (putBytes m (envValMax * i + o) (l ++ [0])) n' := by
  intro j hj
  rw [List.length_append, List.length_singleton] at hfit
  by_cases hij : i = j
  · subst hij
    refine mem_bytesAt_of (k := o + l.length) ?_ (by omega)
    rw [← Nat.add_assoc]
    exact putBytes_last m _ l
  · have hsame := putBytes_row m hij (o := o) (l := l ++ [0])
      (by rwa [List.length_append, List.length_singleton])
    rw [bytesAt_congr hsame (Nat.le_refl _) (Nat.le_refl _)]
    exact h j (by omega)

theorem RowsEnd.mono (h : RowsEnd m n) (hn : n' ≤ n) : RowsEnd m n' :=
  fun i hi => h i (Nat.lt_of_lt_of_le hi hn)

/-- The string in a row leaves room for its NUL. -/
theorem RowsEnd.text (h : RowsEnd m n) (hi : i < n) :
    TextAt m (envValMax * i) (rowText m i).chars ∧ (rowText m i).chars.length < envValMax := by
  obtain ⟨k, hk, hz⟩ := mem_bytesAt (h i hi)
  obtain ⟨l, hl, hle⟩ := exists_textAt hz
  have htext : (rowText m i).chars = l := hl.takeWhile (Nat.lt_of_le_of_lt hle hk)
  rw [htext]
  exact ⟨hl, Nat.lt_of_le_of_lt hle hk⟩

theorem RowsEnd.moveRows (h : RowsEnd m n) (hk : k + d < n) : RowsEnd (moveRows m d k) n := by
  induction d generalizing m k with
  | zero => exact h
  | succ d ih =>
    have hlt := (h.text (i := k + 1) (by omega)).2
    refine ih ?_ (by omega)
    refine h.putBytes (o := 0) ?_ (.inl (Nat.le_refl n))
    rw [List.length_append, List.length_singleton]
    omega

/-- `env_set` writes strings. -/
theorem Environment.rowsEnd_envSet {e : Environment} (h : RowsEnd e.envVars e.envCount)
    (name value : Text) : RowsEnd (e.envSet name value).envVars (e.envSet name value).envCount := by
  rw [Environment.envSet]
  split
  · exact h
  · next hshort =>
    have hfit : strlen name + 1 + strlen value < envValMax := Nat.not_le.1 hshort
    split
    · refine h.putBytes ?_ (.inl (Nat.le_refl _))
      rw [List.length_append, List.length_singleton]
      exact hfit
    · split
      · refine h.putBytes (o := 0) ?_ (.inr ⟨rfl, rfl⟩)
        rw [List.length_append, List.length_singleton, length_row, Nat.zero_add]
        exact hfit
      · exact h

theorem Environment.rowsEnd_unset {e : Environment} (h : RowsEnd e.envVars e.envCount)
    (name : Text) : RowsEnd (e.unset name).envVars (e.unset name).envCount := by
  rw [Environment.unset]
  split
  · next i hf =>
    have hi := List.mem_range.1 (List.mem_of_find?_eq_some hf)
    exact (h.moveRows (k := i) (by omega)).mono (Nat.sub_le _ _)
  · exact h

/-- In every table that can be reached the rows are strings. -/
theorem Environment.Reachable.rowsEnd {e : Environment} (h : e.Reachable) :
    RowsEnd e.envVars e.envCount := by
  induction h with
  | boot status => exact fun i hi => absurd hi (Nat.not_lt_zero i)
  | set name value _ ih => exact rowsEnd_envSet ih name value
  | unset name _ ih => exact rowsEnd_unset ih name
  | status v _ ih => exact ih

/-- A byte in front of the NUL of a row belongs to its string. -/
theorem mem_rowText (hj : ∀ k, k < j → m (envValMax * i + k) ≠ 0) (hb : m (envValMax * i + j) = b)
    (hb₀ : b ≠ 0) (hlt : j < envValMax) : b ∈ (rowText m i).chars := by
  have hgo : ∀ n a, j < n → (∀ k, k < j → m (a + k) ≠ 0) → m (a + j) = b →
      b ∈ (bytesAt m a n).takeWhile (· ≠ 0) := by
    clear hj hb hlt
    induction j with
    | zero =>
      intro n a hn _ hb
      obtain ⟨n, rfl⟩ : ∃ d, n = d + 1 := ⟨n - 1, by omega⟩
      have ha : m a = b := hb
      rw [bytesAt, ha, List.takeWhile_cons_of_pos (by simpa using hb₀)]
      exact List.mem_cons_self
    | succ j ih =>
      intro n a hn hj hb
      obtain ⟨n, rfl⟩ : ∃ d, n = d + 1 := ⟨n - 1, by omega⟩
      have hsum : ∀ k, a + 1 + k = a + (k + 1) := fun k => by omega
      have ha : m a ≠ 0 := hj 0 (Nat.succ_pos j)
      rw [bytesAt, List.takeWhile_cons_of_pos (by simpa using ha)]
      refine List.mem_cons_of_mem _ (ih n (a + 1) (by omega) (fun k hk => ?_) ?_)
      · rw [hsum]
        exact hj (k + 1) (Nat.succ_lt_succ hk)
      · rwa [hsum]
  exact hgo envValMax _ hlt hj hb

/-- The whole row never equals a name without `=`. -/
theorem Environment.unsetMatches_false {e : Environment} (h : RowsEnd e.envVars e.envCount)
    (hi : i < e.envCount) (hname : charEquals ∉ name.chars) : e.unsetMatches name i = false := by
  rw [unsetMatches, decide_eq_false_iff_not]
  rintro ⟨hj, hcmp⟩
  obtain ⟨k, hk, hz⟩ := mem_bytesAt (h i hi)
  have hstop : (fun j => e.rowByte i j == 0 || e.rowByte i j == charEquals) k = true := by
    have hz' : e.rowByte i k = 0 := hz
    simp only [hz', beq_self_eq_true, Bool.true_or]
  generalize hindex : stopIndex (fun j => e.rowByte i j == 0 || e.rowByte i j == charEquals)
    envValMax = j at hj
  have hle : j ≤ k := by
    rw [← hindex]
    exact stopIndex_le hstop hk
  refine hname ?_
  rw [← (strcmp_eq_zero_iff _ _).1 hcmp]
  refine mem_rowText (fun l hl hzero => ?_) hj (by decide) (by omega)
  have hstop' : (fun j => e.rowByte i j == 0 || e.rowByte i j == charEquals) l = true := by
    have hz' : e.rowByte i l = 0 := hzero
    simp only [hz', beq_self_eq_true, Bool.true_or]
  have hmin : stopIndex (fun j => e.rowByte i j == 0 || e.rowByte i j == charEquals) envValMax ≤
      l := stopIndex_le hstop' (by omega)
  omega

/-- So `unset` never removes such a name. -/
theorem Environment.unset_eq_self {e : Environment} (h : RowsEnd e.envVars e.envCount)
    (hname : charEquals ∉ name.chars) : e.unset name = e := by
  have hnone : (List.range e.envCount).find? (e.unsetMatches name) = none := by
    refine List.find?_eq_none.2 fun i hi => ?_
    rw [unsetMatches_false h (List.mem_range.1 hi) hname]
    exact Bool.false_ne_true
  rw [unset, hnone]

/-- The row that `env_get` and `env_set` find is one of the name's. -/
theorem Environment.mem_names {e : Environment} (h : RowsEnd e.envVars e.envCount)
    (hi : i < e.envCount) (hm : e.rowMatches name i = true) : name.chars ∈ e.names := by
  rw [rowMatches, decide_eq_true_eq] at hm
  obtain ⟨hj, heq⟩ := hm
  have hrow : e.rowByte i (strlen name) = charEquals := hj ▸ heq
  have hpass : ∀ k, k < strlen name → e.rowByte i k ≠ 0 := fun k hk =>
    matchName_ne_zero (fun k hk => absurd hk (Nat.not_lt_zero k)) (hj.symm ▸ hk)
  obtain ⟨k, hk, hz⟩ := mem_bytesAt (h i hi)
  have hlt : strlen name < k := by
    by_contra hge
    rcases Nat.lt_or_eq_of_le (Nat.not_lt.1 hge) with hlt | rfl
    · exact hpass k hlt hz
    · exact absurd (hrow.symm.trans hz) (by decide)
  have hmem : charEquals ∈ (rowText e.envVars i).chars :=
    mem_rowText hpass hrow (by decide) (by omega)
  have hfree : charEquals ∉ (rowText e.envVars i).chars.takeWhile (· ≠ charEquals) := by
    intro hin
    simpa using List.mem_takeWhile_imp hin
  have hshort : ((rowText e.envVars i).chars.takeWhile (· ≠ charEquals)).length <
      (rowText e.envVars i).chars.length := by
    refine Nat.lt_of_le_of_ne (List.takeWhile_prefix _).length_le fun hlength => hfree ?_
    rwa [(List.takeWhile_prefix _).eq_of_length hlength]
  obtain ⟨v, hsplit⟩ := takeWhile_stop hshort
  have htext := (h.text hi).1
  rw [hsplit] at htext
  have hchar : ∀ k, name.char (0 + k) = name.chars.getD k 0 := fun k => by
    rw [Nat.zero_add]
    rfl
  have hiff := matchName_iff ((textAt_shift _ _).2 htext) hfree hchar
  rw [Nat.zero_add] at hiff
  have hname := hiff.1 ⟨hj, heq⟩
  refine List.mem_map.2 ⟨e.row i, List.mem_map.2 ⟨i, List.mem_range.2 hi, rfl⟩, ?_⟩
  exact hname

/-- `unset` removes exactly the named variable when there is none of that name, and only then. -/
theorem unset_exact_iff (s : UserShell) (name : Text) (hs : s.env.Reachable)
    (hname : charEquals ∉ name.chars) :
    s.env.UnsetsExactly (executeBuiltin [word "unset", name] s).2.env name ↔
      name.chars ∉ s.env.names := by
  have hrows := hs.rowsEnd
  have hrun : (executeBuiltin [word "unset", name] s).2.env = s.env.unset name := rfl
  rw [hrun, Environment.unset_eq_self hrows hname]
  constructor
  · intro h hmem
    have hcount := h.count
    rw [if_pos hmem] at hcount
    obtain ⟨row, hrow, -⟩ := List.mem_map.1 hmem
    obtain ⟨i, hi, -⟩ := List.mem_map.1 hrow
    have hlt := List.mem_range.1 hi
    omega
  · intro habsent
    refine ⟨fun hquestion => ?_, ?_, fun other _ => rfl, (if_neg habsent).symm⟩
    · have hfind : s.env.findRow name = none := by
        refine List.find?_eq_none.2 fun i hi hm => habsent ?_
        exact Environment.mem_names hrows (List.mem_range.1 hi) hm
      have hcmp : strcmp name questionMark ≠ 0 := by
        rw [ne_eq, strcmp_eq_zero_iff]
        exact hquestion
      rw [Environment.envGet, hfind]
      change (if strcmp name questionMark = 0 then statusDigits s.env.lastExitStatus
        else fun _ => 0) 0 = 0
      rw [if_neg hcmp]
    · refine (List.filter_eq_self.2 fun row hrow => ?_).symm
      rw [decide_eq_true_eq]
      intro heq
      exact habsent (List.mem_map.2 ⟨row, hrow, heq⟩)

/-- `A` and `AB` are set, and `unset B` leaves them. -/
theorem unset_exact_iff_absent :
    let e := ((Environment.empty 0).envSet (word "A") (word "1")).envSet (word "AB") (word "2")
    e.names = [ascii "A", ascii "AB"] ∧
      e.UnsetsExactly (executeBuiltin [word "unset", word "B"] ⟨e, .empty, []⟩).2.env
        (word "B") := by
  intro e
  have hnames : e.names = [ascii "A", ascii "AB"] := by decide +kernel
  have hreach : e.Reachable := .set (word "AB") (word "2") (.set (word "A") (word "1") (.boot 0))
  refine ⟨hnames, (unset_exact_iff ⟨e, .empty, []⟩ (word "B") hreach (by decide)).2 ?_⟩
  change (word "B").chars ∉ e.names
  rw [hnames]
  decide

/-- `A` is set to `1`, and `unset A` leaves it. -/
theorem unset_leaves_variable :
    ¬ ∀ (s : UserShell) (name : Text), s.env.Reachable → charEquals ∉ name.chars →
      s.env.UnsetsExactly (executeBuiltin [word "unset", name] s).2.env name := by
  intro hall
  have h := hall ⟨(Environment.empty 0).envSet (word "A") (word "1"), .empty, []⟩ (word "A")
    (.set (word "A") (word "1") (.boot 0)) (by decide)
  exact absurd h.count (by decide)

end KernelCustom
