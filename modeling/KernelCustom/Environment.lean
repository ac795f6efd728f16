import KernelCustom.Tokenizer
import KernelCustom.CString
import KernelCustom.BoundedMap

namespace KernelCustom
open ByteStore CString BoundedMap
set_option autoImplicit true

def maxEnv : Nat := 32
def envValMax : Nat := 128
def charEquals : UInt8 := 0x3D
def charQuestion : UInt8 := 0x3F

/-- The variables of the shell: the bytes of `env_vars`, one row behind the other, `env_count`
and `last_exit_status`. -/
structure Environment where
  envVars : Mem
  envCount : Nat
  lastExitStatus : Int

/-- The static table before the first call. -/
def Environment.empty (status : Int) : Environment := ⟨fun _ => 0, 0, status⟩

/-- The loop that compares a row with a name, for the rounds that `j < name_len` leaves. -/
def matchName (row : Nat → UInt8) (name : Text) : Nat → Nat → Nat
  | 0, j => j
  | left + 1, j =>
    if row j ≠ 0 ∧ row j ≠ charEquals then
      if row j ≠ name.char j then j else matchName row name left (j + 1)
    else j

def Environment.rowByte (e : Environment) (i j : Nat) : UInt8 := e.envVars (envValMax * i + j)

/-- `j == name_len && env_vars[i][j] == '='` behind the loop. -/
def Environment.rowMatches (e : Environment) (name : Text) (i : Nat) : Bool :=
  let j := matchName (e.rowByte i) name (strlen name) 0
  j = strlen name ∧ e.rowByte i j = charEquals

/-- The first row that `env_get` and `env_set` take for the name's. -/
def Environment.findRow (e : Environment) (name : Text) : Option Nat :=
  (List.range e.envCount).find? (e.rowMatches name)

/-- The three digits of `last_exit_status` in the static array of `env_get`. -/
def statusDigits (v : Int) : Nat → UInt8
  | 0 => UInt8.ofInt (0x30 + v.tdiv 100)
  | 1 => UInt8.ofInt (0x30 + (v.tmod 100).tdiv 10)
  | 2 => UInt8.ofInt (0x30 + (v.tmod 100).tmod 10)
  | _ => 0

def questionMark : Text := ⟨[charQuestion], by decide⟩

/-- `env_get`: the bytes from the pointer it returns on. -/
def Environment.envGet (e : Environment) (name : Text) : Nat → UInt8 :=
  match e.findRow name with
  | some i => fun v => e.rowByte i (strlen name + 1 + v)
  | none =>
    if strcmp name questionMark = 0 then statusDigits e.lastExitStatus else fun _ => 0

/-- `for (int k = 0; k < len; k++) env_vars[i][pos++] = s[k]`, from an address on. -/
def putBytes (m : Mem) (a : Nat) : List UInt8 → Mem
  | [] => m
  | b :: l => putBytes (Function.update m a b) (a + 1) l

def Environment.envSet (e : Environment) (name value : Text) : Environment :=
  if envValMax ≤ strlen name + 1 + strlen value then e
  else
    match e.findRow name with
    | some i =>
      { e with
        envVars := putBytes e.envVars (envValMax * i + (strlen name + 1)) (value.chars ++ [0]) }
    | none =>
      if e.envCount < maxEnv then
        { e with
          envVars := putBytes e.envVars (envValMax * e.envCount)
            (name.chars ++ charEquals :: value.chars ++ [0])
          envCount := e.envCount + 1 }
      else e

theorem TextAt.congr (h : TextAt m a l) (hs : SameOn m m' a (a + l.length + 1)) :
    TextAt m' a l := by
  induction l generalizing a with
  | nil => exact (hs a (Nat.le_refl a) (by simp)).trans h
  | cons b l ih =>
    rw [List.length_cons] at hs
    refine ⟨(hs a (Nat.le_refl a) (by omega)).trans h.1, h.2.1, ih h.2.2 ?_⟩
    exact hs.mono (by omega) (by omega)

/-- The end of a string is exchanged. -/
theorem TextAt.splice (h : TextAt m a (l ++ x)) (hs : SameOn m m' a (a + l.length))
    (h' : TextAt m' (a + l.length) l') : TextAt m' a (l ++ l') := by
  induction l generalizing a with
  | nil => exact h'
  | cons b l ih =>
    rw [List.length_cons] at hs h'
    refine ⟨(hs a (Nat.le_refl a) (by omega)).trans h.1, h.2.1, ih h.2.2 ?_ ?_⟩
    · exact hs.mono (by omega) (by omega)
    · rwa [Nat.add_assoc, Nat.add_comm 1]

theorem textAt_shift (m : Mem) (a : Nat) :
    TextAt (fun v => m (a + v)) i l ↔ TextAt m (a + i) l := by
  induction l generalizing i with
  | nil => exact Iff.rfl
  | cons b l ih => exact and_congr Iff.rfl (and_congr Iff.rfl ih)

theorem putBytes_below (m : Mem) (l : List UInt8) (h : x < a) : putBytes m a l x = m x := by
  induction l generalizing m a with
  | nil => rfl
  | cons b l ih =>
    rw [putBytes, ih _ (by omega), Function.update_of_ne (Nat.ne_of_lt h)]

theorem putBytes_above (m : Mem) (l : List UInt8) (h : a + l.length ≤ x) :
    putBytes m a l x = m x := by
  induction l generalizing m a with
  | nil => rfl
  | cons b l ih =>
    rw [List.length_cons] at h
    rw [putBytes, ih _ (by omega), Function.update_of_ne (by omega)]

theorem textAt_putBytes (m : Mem) (a : Nat) (h : 0 ∉ l) :
    TextAt (putBytes m a (l ++ [0])) a l := by
  induction l generalizing m a with
  | nil => exact Function.update_self a 0 m
  | cons b l ih =>
    rw [List.cons_append, putBytes]
    refine ⟨?_, (List.ne_of_not_mem_cons h).symm, ih _ _ (List.not_mem_of_not_mem_cons h)⟩
    rw [putBytes_below _ _ (Nat.lt_succ_self a), Function.update_self]

/-- The comparison of a row `NAME=VALUE` with a name. -/
theorem matchName_iff (h : TextAt row j (l ++ charEquals :: v)) (hl : charEquals ∉ l)
    (hname : ∀ k, name.char (j + k) = l'.getD k 0) :
    (matchName row name l'.length j = j + l'.length ∧
      row (matchName row name l'.length j) = charEquals) ↔ l = l' := by
  induction l' generalizing l j with
  | nil =>
    rw [List.length_nil, matchName]
    cases l with
    | nil => exact iff_of_true ⟨rfl, h.1⟩ rfl
    | cons b l =>
      refine iff_of_false ?_ (List.cons_ne_nil b l)
      intro hm
      exact List.ne_of_not_mem_cons hl (hm.2.symm.trans h.1)
  | cons c l' ih =>
    rw [List.length_cons, matchName]
    cases l with
    | nil =>
      rw [if_neg fun hrow => hrow.2 h.1]
      refine iff_of_false (fun hm => ?_) (List.cons_ne_nil c l').symm
      omega
    | cons b l =>
      have hrow : row j ≠ 0 ∧ row j ≠ charEquals := by
        rw [h.1]
        exact ⟨h.2.1, (List.ne_of_not_mem_cons hl).symm⟩
      have hc : name.char j = c := hname 0
      rw [if_pos hrow, hc, h.1]
      by_cases hbc : b = c
      · rw [if_neg (not_not.2 hbc), List.cons.injEq, and_iff_right hbc]
        have hsum : j + (l'.length + 1) = j + 1 + l'.length := by omega
        rw [hsum]
        refine ih h.2.2 (List.not_mem_of_not_mem_cons hl) fun k => ?_
        rw [Nat.add_assoc, Nat.add_comm 1, hname (k + 1), List.getD_cons_succ]
      · rw [if_pos hbc]
        refine iff_of_false (fun hm => ?_) (fun hcons => hbc (List.cons.inj hcons).1)
        omega

/-- The rows hold the entries of a map as `NAME=VALUE`, and the rows behind them are empty. -/
structure Environment.Represents (e : Environment) (m : List (List UInt8 × List UInt8)) :
    Prop where
  count : e.envCount = m.length
  row : ∀ i (h : i < m.length),
    TextAt e.envVars (envValMax * i) (m[i].1 ++ charEquals :: m[i].2)
  short : ∀ i (h : i < m.length), m[i].1.length + 1 + m[i].2.length < envValMax
  free : ∀ i (h : i < m.length), charEquals ∉ m[i].1
  nodup : (keys m).Nodup
  unused : ∀ i, m.length ≤ i → e.envVars (envValMax * i) = 0
  full : m.length ≤ maxEnv

theorem Environment.represents_empty (status : Int) :
    (Environment.empty status).Represents [] where
  count := rfl
  row _ h := by cases h
  short _ h := by cases h
  free _ h := by cases h
  nodup := List.nodup_nil
  unused _ _ := rfl
  full := Nat.zero_le _

theorem Environment.Represents.rowText (hr : Environment.Represents e m) (hi : i < m.length) :
    TextAt (e.rowByte i) 0 (m[i].1 ++ charEquals :: m[i].2) := (textAt_shift _ _).2 (hr.row i hi)

theorem Environment.Represents.rowMatches_iff (hr : Environment.Represents e m)
    (hi : i < m.length) (name : Text) : e.rowMatches name i = true ↔ m[i].1 = name.chars := by
  have hchar : ∀ k, name.char (0 + k) = name.chars.getD k 0 := fun k => by
    rw [Nat.zero_add]
    rfl
  have hiff := matchName_iff (hr.rowText hi) (hr.free i hi) hchar
  rw [rowMatches, decide_eq_true_eq, ← hiff, Nat.zero_add]
  rfl

theorem Environment.Represents.findRow_some (hr : Environment.Represents e m)
    (hf : e.findRow name = some i) : ∃ h : i < m.length, m[i].1 = name.chars := by
  have hi : i < m.length := by
    have := List.mem_of_find?_eq_some hf
    rwa [List.mem_range, hr.count] at this
  exact ⟨hi, (hr.rowMatches_iff hi name).1 (List.find?_some hf)⟩

theorem Environment.Represents.findRow_none (hr : Environment.Represents e m)
    (hf : e.findRow name = none) : name.chars ∉ keys m := by
  intro hmem
  obtain ⟨p, hp, hname⟩ := List.mem_map.1 hmem
  obtain ⟨i, hi, rfl⟩ := List.mem_iff_getElem.1 hp
  refine List.find?_eq_none.1 hf i ?_ ((hr.rowMatches_iff hi name).2 hname)
  rwa [List.mem_range, hr.count]

/-- A variable that is set reads as its value, one that is not as the empty string. -/
theorem Environment.Represents.envGet (hr : Environment.Represents e m)
    (hname : name.chars ≠ [charQuestion]) :
    TextAt (e.envGet name) 0 ((m.lookup name.chars).getD []) := by
  rw [Environment.envGet]
  split
  · next i hf =>
    obtain ⟨hi, hk⟩ := hr.findRow_some hf
    rw [← hk, lookup_getElem hr.nodup hi, Option.getD_some]
    have htext := (hr.rowText hi).append.2.2
    have hlength : m[i].1.length = strlen name := congrArg List.length hk
    rw [hlength, Nat.zero_add] at htext
    exact (textAt_shift _ _).2 htext
  · next hf =>
    rw [lookup_eq_none (hr.findRow_none hf), if_neg]
    · exact rfl
    · rwa [strcmp_eq_zero_iff]

/-- A string written into one row leaves the others as they are. -/
theorem putBytes_row (m : Mem) (hij : i ≠ j) (hl : o + l.length ≤ envValMax) :
    SameOn m (putBytes m (envValMax * i + o) l) (envValMax * j) (envValMax * j + envValMax) := by
  intro x hlo hhi
  rcases Nat.lt_or_gt_of_ne hij with h | h
  · have hrows : envValMax * i + envValMax ≤ envValMax * j := Nat.mul_le_mul_left envValMax h
    exact putBytes_above m l (by omega)
  · have hrows : envValMax * j + envValMax ≤ envValMax * i := Nat.mul_le_mul_left envValMax h
    exact putBytes_below m l (by omega)

theorem length_row (n v : List UInt8) :
    (n ++ charEquals :: v).length = n.length + 1 + v.length := by
  rw [List.length_append, List.length_cons, Nat.add_assoc, Nat.add_comm 1]

/-- Bytes put into one row leave the string of another as it is. -/
theorem Environment.Represents.row_putBytes (hr : Environment.Represents e m) (hne : i ≠ j)
    (hfit : k + bytes.length ≤ envValMax) (hj : j < m.length) :
    TextAt (putBytes e.envVars (envValMax * i + k) bytes) (envValMax * j)
      (m[j].1 ++ charEquals :: m[j].2) := by
  refine (hr.row j hj).congr ?_
  have hshort := hr.short j hj
  refine (putBytes_row e.envVars hne hfit).mono (Nat.le_refl _) ?_
  rw [length_row]
  omega

theorem Environment.Represents.unused_putBytes (hr : Environment.Represents e m) (hne : i ≠ j)
    (hfit : k + bytes.length ≤ envValMax) (hj : m.length ≤ j) :
    putBytes e.envVars (envValMax * i + k) bytes (envValMax * j) = 0 := by
  have hsame := putBytes_row e.envVars hne hfit
  refine (hsame _ (Nat.le_refl _) ?_).trans (hr.unused j hj)
  exact Nat.lt_add_of_pos_right (by decide)

/-- A call for a variable that is set. -/
theorem Environment.Represents.overwrite (hr : Environment.Represents e m)
    (hshort : strlen name + 1 + strlen value < envValMax) (hi : i < m.length)
    (hk : m[i].1 = name.chars) :
    Environment.Represents
      { e with
        envVars := putBytes e.envVars (envValMax * i + (strlen name + 1)) (value.chars ++ [0]) }
      (m.map fun p => if p.1 = name.chars then (name.chars, value.chars) else p) := by
  have hfit : strlen name + 1 + (value.chars ++ [0]).length ≤ envValMax := by
    rw [List.length_append]
    exact hshort
  have hmem : name.chars ∈ keys m := hk ▸ List.mem_map_of_mem (List.getElem_mem hi)
  have hput := put_of_mem hmem maxEnv value.chars
  have hentry := fun j => getElem_overwrite (j := j) hr.nodup hi hk value.chars
  refine ⟨hr.count.trans (List.length_map _).symm, fun j hj => ?_, fun j hj => ?_, fun j hj => ?_,
    ?_, fun j hj => ?_, ?_⟩
  · have hj' : j < m.length := by rwa [List.length_map] at hj
    rw [hentry j hj hj']
    split
    · next hji =>
      subst hji
      have hrow := hr.row j hi
      rw [hk, List.append_cons] at hrow
      change TextAt (putBytes _ _ _) _ (name.chars ++ charEquals :: value.chars)
      rw [List.append_cons name.chars]
      refine hrow.splice (fun x _ hx => ?_) ?_
      · rw [List.length_append] at hx
        exact putBytes_below _ _ hx
      · rw [List.length_append]
        exact textAt_putBytes _ _ value.no_nul
    · next hji => exact hr.row_putBytes (Ne.symm hji) hfit hj'
  · have hj' : j < m.length := by rwa [List.length_map] at hj
    rw [hentry j hj hj']
    split
    · exact hshort
    · exact hr.short j hj'
  · have hj' : j < m.length := by rwa [List.length_map] at hj
    rw [hentry j hj hj']
    split
    · exact hk ▸ hr.free i hi
    · exact hr.free j hj'
  · rw [← hput]
    exact nodup_keys_put hr.nodup _ _ _
  · rw [List.length_map] at hj
    exact hr.unused_putBytes (by omega) hfit hj
  · rw [← hput]
    exact length_put_le hr.full _ _

/-- A call for a new variable that finds a free row. -/
theorem Environment.Represents.append (hr : Environment.Represents e m)
    (hshort : strlen name + 1 + strlen value < envValMax) (hname : charEquals ∉ name.chars)
    (hnew : name.chars ∉ keys m) (hroom : m.length < maxEnv) :
    Environment.Represents
      { e with
        envVars := putBytes e.envVars (envValMax * e.envCount)
          (name.chars ++ charEquals :: value.chars ++ [0])
        envCount := e.envCount + 1 }
      (m ++ [(name.chars, value.chars)]) := by
  have hfit : 0 + (name.chars ++ charEquals :: value.chars ++ [0]).length ≤ envValMax := by
    rw [Nat.zero_add, List.length_append, length_row]
    exact hshort
  have hcases : ∀ j, j < (m ++ [(name.chars, value.chars)]).length →
      j < m.length ∨ j = m.length := by
    intro j hj
    rw [List.length_append, List.length_singleton] at hj
    omega
  have hput := put_of_room hnew hroom value.chars
  refine ⟨?_, fun j hj => ?_, fun j hj => ?_, fun j hj => ?_, ?_, fun j hj => ?_, ?_⟩
  · rw [List.length_append]
    exact congrArg (· + 1) hr.count
  · rcases hcases j hj with hj | rfl
    · rw [List.getElem_append_left hj]
      have hne : e.envCount ≠ j := by
        rw [hr.count]
        exact Nat.ne_of_gt hj
      exact hr.row_putBytes hne hfit hj
    · rw [List.getElem_concat_length rfl, hr.count]
      refine textAt_putBytes _ _ fun hmem => ?_
      rcases List.mem_append.1 hmem with h | h
      · exact name.no_nul h
      · rcases List.mem_cons.1 h with h | h
        · cases h
        · exact value.no_nul h
  · rcases hcases j hj with hj | rfl
    · rw [List.getElem_append_left hj]
      exact hr.short j hj
    · rw [List.getElem_concat_length rfl]
      exact hshort
  · rcases hcases j hj with hj | rfl
    · rw [List.getElem_append_left hj]
      exact hr.free j hj
    · rw [List.getElem_concat_length rfl]
      exact hname
  · rw [← hput]
    exact nodup_keys_put hr.nodup _ _ _
  · rw [List.length_append, List.length_singleton] at hj
    have hne : e.envCount ≠ j := by
      rw [hr.count]
      omega
    exact hr.unused_putBytes hne hfit (by omega)
  · rw [← hput]
    exact length_put_le hr.full _ _

/-- A call whose string is not too long is a `put` into the map. -/
theorem Environment.Represents.envSet (hr : Environment.Represents e m)
    (hname : charEquals ∉ name.chars) (hshort : strlen name + 1 + strlen value < envValMax) :
    (e.envSet name value).Represents (put maxEnv name.chars value.chars m) := by
  rw [Environment.envSet, if_neg (Nat.not_le.2 hshort)]
  split
  · next i hf =>
    obtain ⟨hi, hk⟩ := hr.findRow_some hf
    rw [put_of_mem (hk ▸ List.mem_map_of_mem (List.getElem_mem hi))]
    exact hr.overwrite hshort hi hk
  · next hf =>
    have hnew := hr.findRow_none hf
    split
    · next hroom =>
      have hroom' : m.length < maxEnv := hr.count ▸ hroom
      rw [put_of_room hnew hroom']
      exact hr.append hshort hname hnew hroom'
    · next hroom =>
      rw [put_of_full hnew (by rw [← hr.count]; exact Nat.not_lt.1 hroom)]
      exact hr

def Environment.envSetAll (e : Environment) (calls : List (Text × Text)) : Environment :=
  calls.foldl (fun e c => e.envSet c.1 c.2) e

/-- The string in a row. -/
def Environment.row (e : Environment) (i : Nat) : List UInt8 :=
  (Text.ofBytes (bytesAt e.envVars (envValMax * i) envValMax)).chars

def Environment.rows (e : Environment) : List (List UInt8) := (List.range e.envCount).map e.row

/-- The names of the rows: what stands before the first `=`. -/
def Environment.names (e : Environment) : List (List UInt8) :=
  e.rows.map fun row => row.takeWhile (· ≠ charEquals)

/-- The string fits, and the name is present or a row is free. -/
def Environment.TakesEffect (e : Environment) (name value : Text) : Prop :=
  strlen name + 1 + strlen value < envValMax ∧
    (name.chars ∈ e.names ∨ e.names.length < maxEnv)

instance (e : Environment) (name value : Text) : Decidable (e.TakesEffect name value) :=
  inferInstanceAs (Decidable (_ ∧ _))

/-- The value of the last call for a name that takes effect, `v` before the first. -/
def lastEffective (name : List UInt8) :
    Environment → List (Text × Text) → List UInt8 → List UInt8
  | _, [], v => v
  | e, c :: calls, v =>
    lastEffective name (e.envSet c.1 c.2) calls
      (if c.1.chars = name ∧ e.TakesEffect c.1 c.2 then c.2.chars else v)

theorem TextAt.takeWhile (h : TextAt m a l) (hn : l.length < n) :
    (Text.ofBytes (bytesAt m a n)).chars = l := by
  change (bytesAt m a n).takeWhile (· ≠ 0) = l
  induction l generalizing a n with
  | nil =>
    cases n with
    | zero => cases hn
    | succ n =>
      have h₀ : m a = 0 := h
      rw [bytesAt, h₀]
      rfl
  | cons b l ih =>
    cases n with
    | zero => cases hn
    | succ n =>
      rw [bytesAt, h.1, List.takeWhile_cons_of_pos (by simpa using h.2.1),
        ih h.2.2 (Nat.lt_of_succ_lt_succ hn)]

theorem Environment.Represents.row_eq (hr : Environment.Represents e m) (hi : i < m.length) :
    e.row i = m[i].1 ++ charEquals :: m[i].2 := by
  refine (hr.row i hi).takeWhile ?_
  rw [length_row]
  exact hr.short i hi

theorem Environment.Represents.rows_eq (hr : Environment.Represents e m) :
    e.rows = m.map fun p => p.1 ++ charEquals :: p.2 := by
  apply List.ext_getElem
  · rw [rows, List.length_map, List.length_map, List.length_range, hr.count]
  · intro i hi hi'
    rw [List.length_map] at hi'
    rw [List.getElem_map]
    simp only [rows, List.getElem_map, List.getElem_range]
    exact hr.row_eq hi'

theorem takeWhile_name (v : List UInt8) (h : charEquals ∉ n) :
    (n ++ charEquals :: v).takeWhile (· ≠ charEquals) = n := by
  rw [List.takeWhile_append_of_pos, List.takeWhile_cons_of_neg (by simp), List.append_nil]
  intro b hb
  exact decide_eq_true fun hbe => h (hbe ▸ hb)

theorem Environment.Represents.names_eq (hr : Environment.Represents e m) :
    e.names = keys m := by
  rw [names, hr.rows_eq, List.map_map, keys]
  refine List.map_congr_left fun p hp => ?_
  obtain ⟨i, hi, rfl⟩ := List.mem_iff_getElem.1 hp
  exact takeWhile_name _ (hr.free i hi)

theorem Environment.Represents.takesEffect_iff (hr : Environment.Represents e m) :
    e.TakesEffect name value ↔ strlen name + 1 + strlen value < envValMax ∧
      (name.chars ∈ keys m ∨ m.length < maxEnv) := by
  rw [TakesEffect, hr.names_eq, keys, List.length_map]

theorem Environment.Represents.envSet_refused (hr : Environment.Represents e m)
    (h : ¬ e.TakesEffect name value) : e.envSet name value = e := by
  rw [hr.takesEffect_iff] at h
  rw [Environment.envSet]
  split
  · rfl
  · next hshort =>
    have hfull : ¬ (name.chars ∈ keys m ∨ m.length < maxEnv) :=
      fun hor => h ⟨Nat.not_le.1 hshort, hor⟩
    split
    · next i hf =>
      obtain ⟨hi, hk⟩ := hr.findRow_some hf
      exact (hfull (.inl (hk ▸ List.mem_map_of_mem (List.getElem_mem hi)))).elim
    · rw [if_neg]
      rw [hr.count]
      exact fun hroom => hfull (.inr hroom)

/-- What a name has after a call. -/
theorem Environment.Represents.lookup_envSet (hr : Environment.Represents e m)
    (hname : charEquals ∉ name.chars) (value : Text) :
    ∃ m', (e.envSet name value).Represents m' ∧ ∀ k, m'.lookup k =
      if name.chars = k ∧ e.TakesEffect name value then some value.chars else m.lookup k := by
  by_cases h : e.TakesEffect name value
  · have heffect := hr.takesEffect_iff.1 h
    refine ⟨_, hr.envSet hname heffect.1, fun k => ?_⟩
    rw [lookup_put heffect.2]
    simp only [h, and_true, eq_comm]
  · rw [hr.envSet_refused h]
    refine ⟨m, hr, fun k => ?_⟩
    rw [if_neg fun hk => h hk.2]

theorem Environment.Represents.envSetAll (hr : Environment.Represents e m)
    (hnames : ∀ c ∈ calls, charEquals ∉ c.1.chars) :
    ∃ m', (e.envSetAll calls).Represents m' ∧ ∀ k, (m'.lookup k).getD [] =
      lastEffective k e calls ((m.lookup k).getD []) := by
  induction calls generalizing e m with
  | nil => exact ⟨m, hr, fun k => rfl⟩
  | cons c calls ih =>
    obtain ⟨m₁, hr₁, hlookup⟩ :=
      hr.lookup_envSet (hnames c List.mem_cons_self) c.2
    obtain ⟨m', hr', hlast⟩ := ih hr₁ fun c' hc' => hnames c' (List.mem_cons_of_mem c hc')
    refine ⟨m', hr', fun k => ?_⟩
    rw [hlast k, hlookup k, lastEffective]
    split <;> rfl

theorem TextAt.nul_mem (h : TextAt m a l) (hn : l.length < n) : 0 ∈ bytesAt m a n := by
  induction l generalizing a n with
  | nil =>
    cases n with
    | zero => cases hn
    | succ n =>
      have h₀ : m a = 0 := h
      rw [bytesAt, h₀]
      exact List.mem_cons_self
  | cons b l ih =>
    cases n with
    | zero => cases hn
    | succ n => exact List.mem_cons_of_mem _ (ih h.2.2 (Nat.lt_of_succ_lt_succ hn))

theorem Environment.Represents.nul_mem (hr : Environment.Represents e m) (i : Nat) :
    0 ∈ bytesAt e.envVars (envValMax * i) envValMax := by
  rcases Nat.lt_or_ge i m.length with hi | hi
  · refine (hr.row i hi).nul_mem ?_
    rw [length_row]
    exact hr.short i hi
  · have hempty : TextAt e.envVars (envValMax * i) [] := hr.unused i hi
    exact hempty.nul_mem (by decide)

theorem row_inj (hn : charEquals ∉ n) (hn' : charEquals ∉ n')
    (h : n ++ charEquals :: v = n' ++ charEquals :: v') : n = n' ∧ v = v' := by
  have hname := congrArg (List.takeWhile (· ≠ charEquals)) h
  rw [takeWhile_name v hn, takeWhile_name v' hn'] at hname
  subst hname
  exact ⟨rfl, (List.cons.inj (List.append_cancel_left h)).2⟩

/-- A call for a name shows in the rows exactly when it takes effect. -/
theorem Environment.Represents.mem_rows_iff (hr : Environment.Represents e m)
    (hname : charEquals ∉ name.chars) :
    name.chars ++ charEquals :: value.chars ∈ (e.envSet name value).rows ↔
      e.TakesEffect name value := by
  by_cases h : e.TakesEffect name value
  · refine iff_of_true ?_ h
    obtain ⟨m', hr', hlookup⟩ := hr.lookup_envSet hname value
    have hself := hlookup name.chars
    rw [if_pos ⟨rfl, h⟩, List.lookup_eq_some_iff] at hself
    obtain ⟨l₁, l₂, hm, -⟩ := hself
    rw [hr'.rows_eq]
    refine List.mem_map.2 ⟨(name.chars, value.chars), ?_, rfl⟩
    rw [hm]
    exact List.mem_append_right l₁ List.mem_cons_self
  · refine iff_of_false (fun hmem => h ?_) h
    rw [hr.envSet_refused h, hr.rows_eq] at hmem
    obtain ⟨p, hp, hrow⟩ := List.mem_map.1 hmem
    obtain ⟨i, hi, rfl⟩ := List.mem_iff_getElem.1 hp
    obtain ⟨hk, hv⟩ := row_inj (hr.free i hi) hname hrow
    have hshort := hr.short i hi
    rw [hk, hv] at hshort
    exact hr.takesEffect_iff.2 ⟨hshort, .inl (hk ▸ List.mem_map_of_mem hp)⟩

/-- The environment is a map of at most 32 names, in every run of calls. -/
theorem environment_is_bounded_map (status : Int) (calls : List (Text × Text))
    (hnames : ∀ c ∈ calls, charEquals ∉ c.1.chars) :
    let e := (Environment.empty status).envSetAll calls
    e.envCount ≤ maxEnv ∧
      (∀ i, i < maxEnv → 0 ∈ bytesAt e.envVars (envValMax * i) envValMax) ∧
      e.names.Nodup ∧
      (∀ name value : Text, charEquals ∉ name.chars →
        (name.chars ++ charEquals :: value.chars ∈ (e.envSet name value).rows ↔
          e.TakesEffect name value) ∧
        (¬ e.TakesEffect name value → e.envSet name value = e)) ∧
      ∀ name : Text, charEquals ∉ name.chars → name.chars ≠ [charQuestion] →
        TextAt (e.envGet name) 0 (lastEffective name.chars (.empty status) calls []) := by
  intro e
  obtain ⟨m, hr, hlast⟩ := (Environment.represents_empty status).envSetAll hnames
  refine ⟨hr.count.trans_le hr.full, fun i _ => hr.nul_mem i, ?_, fun name value hname => ?_,
    fun name _ hname => ?_⟩
  · rw [hr.names_eq]
    exact hr.nodup
  · exact ⟨hr.mem_rows_iff hname, hr.envSet_refused⟩
  · have hget := hr.envGet hname
    rw [hlast] at hget
    exact hget

theorem environment_is_bounded_map_overwrite :
    TextAt (((Environment.empty 0).envSetAll
      [(⟨[0x41], by decide⟩, ⟨[0x31, 0x31], by decide⟩),
        (⟨[0x41, 0x42], by decide⟩, ⟨[], by decide⟩),
        (⟨[0x41], by decide⟩, ⟨[0x32], by decide⟩)]).envGet ⟨[0x41], by decide⟩) 0 [0x32] :=
  (environment_is_bounded_map 0 _ (by decide)).2.2.2.2 ⟨[0x41], by decide⟩ (by decide) (by decide)

end KernelCustom
