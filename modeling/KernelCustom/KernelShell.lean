import KernelCustom.FileContents
import KernelCustom.PathBuffer

namespace KernelCustom
open Word32 ByteStore CString
set_option autoImplicit true

/-- The branches of `handle_command`, with the part of the line that each works on. -/
inductive Command where
  | help
  | testRing3
  | missingFilename
  | nothing
  | cd (path : Text)
  | cat (filename : Text)
  | ls
  | lsPath (path : Text)
  | clear
  | program (filepath : Text)
  | unknown (cmd : Text)
  deriving DecidableEq

def parseCommand (cmd : Text) : Command :=
  if strcmp cmd (word "help") = 0 then .help
  else if strcmp cmd (word "test_ring3") = 0 then .testRing3
  else if strcmp cmd (word "cat") = 0 then .missingFilename
  else if strcmp cmd (word "cd") = 0 then .nothing
  else if strncmp cmd.char (word "cd ").char 3 = 0 then .cd (cmd.drop 3)
  else if strncmp cmd.char (word "cat ").char 4 = 0 then .cat (cmd.drop 4)
  else if strcmp cmd (word "ls") = 0 then .ls
  else if strncmp cmd.char (word "ls ").char 3 = 0 then .lsPath (cmd.drop 3)
  else if strcmp cmd (word "clear") = 0 then .clear
  else if cmd.char 0 = 0 then .nothing
  else if cmd.char 0 = slash ∨ strncmp cmd.char (word "./").char 2 = 0 then .program cmd
  else .unknown cmd

/-- What `handle_command` works on: the memory with the heap, the static buffers of
`find_inode_in_dir`, `ext2_lookup`, `ext2_ls` and `ext2_cat`, the variables of the current
directory, the console, and the directories in which the command has listed or looked up
something, in order. -/
structure KernelShell where
  heap : MemoryState
  findBuf : Mem
  lookupBuf : Mem
  lsBuf : Mem
  catBuf : Mem
  gCwdInode : Nat
  cwd : Cwd
  out : Console
  searched : List Nat

/-- What the local inode structs hold that the functions of a command find on the stack; `caller`
is the struct of the function that has asked for a look-up. -/
structure Structs where
  find : Nat → Mem
  lookup : Mem
  caller : Mem
  ls : Mem

/-- What `handle_command` calls and the repository does not have, or leaves to a program in user
mode: `load_elf_program_from_inode`, which gives the entry point, `task_create`, and
`run_user_program_at` with the program of `test_ring3`. -/
structure Programs where
  loadElfProgramFromInode : Nat → MemoryState → Except Stuck (Option Nat × MemoryState)
  taskCreate : Nat → Nat → MemoryState × Console → Except Stuck (MemoryState × Console)
  runTestRing3 : MemoryState × Console → Except Stuck (MemoryState × Console)

def helpText : List String :=
  ["commands: help, ls, clear, cd, ./program\n",
    "  - help            Show this help message\n",
    "  - ls [path]       List directory contents\n",
    "  - cd <path>       Change directory\n",
    "  - clear           Clear screen\n",
    "  - ./program       Execute program from current directory\n",
    "  - /path/program   Execute program from absolute path\n"]

def KernelShell.print (s : KernelShell) (text : List UInt8) : KernelShell :=
  { s with out := vgaPuts text s.out }

/-- `clear_screen`: nothing of what was printed is left. -/
def KernelShell.clearScreen (s : KernelShell) : KernelShell :=
  { s with out := { s.out with vga := [] } }

section
variable (L : Layout) (disk : Disk) (fs : FileSystem) (programs : Programs) (structs : Structs)

/-- The call `ext2_ls(dir)`. -/
def KernelShell.ext2Ls (s : KernelShell) (dir : Nat) : Except Stuck KernelShell :=
  (KernelCustom.ext2Ls L disk s.heap s.lsBuf structs.ls (some fs) dir s.out).map fun r =>
    { s with heap := r.heap, lsBuf := r.blockBuf, out := r.result, searched := s.searched ++ [dir] }

/-- The call `resolve_path(path)`, with its answer. -/
def KernelShell.resolvePath (s : KernelShell) (path : Text) : Except Stuck (KernelShell × Nat) :=
  (KernelCustom.resolvePath L disk fs s.heap s.findBuf structs.find path).map fun w =>
    ({ s with heap := w.heap, findBuf := w.blockBuf, searched := s.searched ++ w.searched },
      w.currentInode)

/-- The call `ext2_cd(path)`; an empty path looks nothing up. -/
def KernelShell.ext2Cd (s : KernelShell) (path : Text) : Except Stuck KernelShell :=
  (KernelCustom.ext2Cd L disk s.heap s.lookupBuf structs.lookup fs s.cwd path structs.caller
    s.out).map fun r =>
      { s with
        heap := r.heap, lookupBuf := r.dirBlockBuf, cwd := r.cwd, out := r.out
        searched := if path.chars = [] then s.searched else s.searched ++ [s.cwd.internalId] }

/-- The call `ext2_cat(filename)`, with `g_cwd_node.internal_id` as its directory. -/
def KernelShell.ext2Cat (s : KernelShell) (filename : Text) : Except Stuck KernelShell :=
  (KernelCustom.ext2Cat L disk s.heap s.lookupBuf structs.lookup fs s.cwd.internalId filename
    s.catBuf structs.caller s.out).map fun r =>
      { s with
        heap := r.heap, lookupBuf := r.dirBlockBuf, catBuf := r.blockBuf, out := r.out
        searched := if filename.chars = [] then s.searched else s.searched ++ [s.cwd.internalId] }

/-- `run_user_program_from_file`. -/
def KernelShell.runUserProgramFromFile (s : KernelShell) (filepath : Text) :
    Except Stuck KernelShell := do
  let (s, inodeNum) ← s.resolvePath L disk fs structs filepath
  if inodeNum = 0 then
    .ok (s.print (ascii "Error: File not found - " ++ filepath.chars ++ ascii "\n"))
  else do
    let fileInode ← readLocalInode fs disk inodeNum structs.caller
    if isDirectory fileInode then
      .ok (s.print (ascii "Error: " ++ filepath.chars ++
        ascii " is a directory, not an executable\n"))
    else if ¬ isRegular fileInode then
      let s := s.print (ascii "Error: Invalid file type (mode=0x")
      let s := { s with out := serialPuts (hexText (load16 fileInode 0)) s.out }
      .ok (s.print (ascii ")\n"))
    else if iSize fileInode = 0 then .ok (s.print (ascii "Error: File is empty\n"))
    else do
      let (entryPoint, heap) ← programs.loadElfProgramFromInode inodeNum s.heap
      let s := { s with heap := heap }
      match entryPoint with
      | none => .ok (s.print (ascii "Error: Invalid or unsupported ELF\n"))
      | some entryPoint =>
        (programs.taskCreate entryPoint userStackTop (s.heap, s.out)).map fun r =>
          { s with heap := r.1, out := r.2 }

/-- The branch `ls path`. -/
def KernelShell.lsPath (s : KernelShell) (path : Text) : Except Stuck KernelShell := do
  let (s, targetInode) ← s.resolvePath L disk fs structs path
  if targetInode ≠ 0 then do
    let inodeData ← readLocalInode fs disk targetInode structs.caller
    if isDirectory inodeData then s.ext2Ls L disk fs structs targetInode
    else .ok (s.print (ascii "ls: " ++ path.chars ++ ascii ": Not a directory\n"))
  else .ok (s.print (ascii "ls: No such file or directory\n"))

/-- `handle_command`. Colours are left out. -/
def handleCommand (s : KernelShell) (cmd : Text) : Except Stuck KernelShell :=
  let s := { s with searched := [] }
  match parseCommand cmd with
  | .help => .ok (s.print (helpText.flatMap ascii))
  | .testRing3 =>
    let s := s.print (ascii "Switching to Ring 3...\n")
    let s := s.print (ascii "Launching program with syscall support...\n")
    (programs.runTestRing3 (s.heap, s.out)).map fun r => { s with heap := r.1, out := r.2 }
  | .missingFilename => .ok (s.print (ascii "cat: Missing filename.\n"))
  | .nothing => .ok s
  | .cd path => s.ext2Cd L disk fs structs path
  | .cat filename => s.ext2Cat L disk fs structs filename
  | .ls => s.ext2Ls L disk fs structs s.gCwdInode
  | .lsPath path => s.lsPath L disk fs structs path
  | .clear => .ok s.clearScreen
  | .program filepath => s.runUserProgramFromFile L disk fs programs structs filepath
  | .unknown cmd => .ok (s.print (ascii "unknown command: " ++ cmd.chars ++ ascii "\n"))

end

/-- A path that does not begin at the root. -/
def Relative (path : List UInt8) : Prop := path ≠ [] ∧ path.head? ≠ some slash

/-- The commands that list a directory or look a relative name up: `ls`, `ls p`, `cat p`, `./p`. -/
inductive LooksUp (cmd : Text) : Prop
  | ls : cmd.chars = ascii "ls" → LooksUp cmd
  | lsPath {p : Text} : cmd.chars = ascii "ls " ++ p.chars → Relative p.chars → LooksUp cmd
  | cat {p : Text} : cmd.chars = ascii "cat " ++ p.chars → Relative p.chars → LooksUp cmd
  | program {p : Text} : cmd.chars = ascii "./" ++ p.chars → LooksUp cmd

theorem strncmp_word (cmd : Text) {n : Nat} {s : String} (hs : 0 ∉ ascii s)
    (hn : (ascii s).length = n) :
    strncmp cmd.char (word s).char n = 0 ↔ ascii s <+: cmd.chars := by
  have hchars : (word s).chars = ascii s := Text.ofBytes_chars hs
  have hiff := strncmp_eq_zero_iff_prefix cmd (word s)
  rwa [hchars, hn] at hiff

/-- The tests of `handle_command`, read off the characters of the line. -/
theorem parseCommand_eq (cmd : Text) : parseCommand cmd =
    if cmd.chars = ascii "help" then .help
    else if cmd.chars = ascii "test_ring3" then .testRing3
    else if cmd.chars = ascii "cat" then .missingFilename
    else if cmd.chars = ascii "cd" then .nothing
    else if ascii "cd " <+: cmd.chars then .cd (cmd.drop 3)
    else if ascii "cat " <+: cmd.chars then .cat (cmd.drop 4)
    else if cmd.chars = ascii "ls" then .ls
    else if ascii "ls " <+: cmd.chars then .lsPath (cmd.drop 3)
    else if cmd.chars = ascii "clear" then .clear
    else if cmd.char 0 = 0 then .nothing
    else if cmd.char 0 = slash ∨ ascii "./" <+: cmd.chars then .program cmd
    else .unknown cmd := by
  have hword : ∀ s ∈ ["help", "test_ring3", "cat", "cd", "ls", "clear"],
      strcmp cmd (word s) = 0 ↔ cmd.chars = ascii s := by
    intro s hs
    have hnul : ∀ s ∈ ["help", "test_ring3", "cat", "cd", "ls", "clear"], 0 ∉ ascii s := by decide
    rw [strcmp_eq_zero_iff, word, Text.ofBytes_chars (hnul s hs)]
  have hcd : strncmp cmd.char (word "cd ").char 3 = 0 ↔ ascii "cd " <+: cmd.chars :=
    strncmp_word cmd (by decide) rfl
  have hcat : strncmp cmd.char (word "cat ").char 4 = 0 ↔ ascii "cat " <+: cmd.chars :=
    strncmp_word cmd (by decide) rfl
  have hls : strncmp cmd.char (word "ls ").char 3 = 0 ↔ ascii "ls " <+: cmd.chars :=
    strncmp_word cmd (by decide) rfl
  have hrun : strncmp cmd.char (word "./").char 2 = 0 ↔ ascii "./" <+: cmd.chars :=
    strncmp_word cmd (by decide) rfl
  simp only [parseCommand, hword "help" (by decide), hword "test_ring3" (by decide),
    hword "cat" (by decide), hword "cd" (by decide), hword "ls" (by decide),
    hword "clear" (by decide), hcd, hcat, hls, hrun]

theorem Text.drop_eq {cmd p : Text} (h : cmd.chars = l ++ p.chars) (hn : l.length = n) :
    cmd.drop n = p := by
  cases cmd
  cases p
  subst h hn
  rw [Text.drop, Text.mk.injEq]
  exact List.drop_left

theorem parseCommand_ls (h : cmd.chars = ascii "ls") : parseCommand cmd = .ls := by
  rw [parseCommand_eq, h]
  rfl

theorem parseCommand_lsPath {p : Text} (h : cmd.chars = ascii "ls " ++ p.chars) :
    parseCommand cmd = .lsPath p := by
  rw [parseCommand_eq, Text.drop_eq (n := 3) h rfl, h]
  rfl

theorem parseCommand_cat {p : Text} (h : cmd.chars = ascii "cat " ++ p.chars) :
    parseCommand cmd = .cat p := by
  rw [parseCommand_eq, Text.drop_eq (n := 4) h rfl, h]
  rfl

theorem parseCommand_program {p : Text} (h : cmd.chars = ascii "./" ++ p.chars) :
    parseCommand cmd = .program cmd := by
  have hchar : cmd.char 0 = 0x2E := by
    rw [Text.char, h]
    rfl
  rw [parseCommand_eq, hchar, h]
  rfl

section
variable {L : Layout} {disk : Disk} {fs : FileSystem} {programs : Programs} {structs : Structs}

theorem resolveNames_searched {w w' : Walk}
    (h : resolveNames L disk fs fuel stack path w = .ok w') : w.searched <+: w'.searched := by
  induction fuel generalizing stack path w with
  | zero => cases h
  | succ fuel ih =>
    rw [resolveNames] at h
    split at h
    · cases h
      exact List.prefix_rfl
    · obtain ⟨r, -, h⟩ := bind_ok h
      dsimp only at h
      split at h
      · cases h
        exact List.prefix_append _ _
      · exact (List.prefix_append _ _).trans (ih h)

/-- `resolve_path` of a relative path looks in the root first, whatever the current directory. -/
theorem resolvePath_searched (hrel : Relative path.chars)
    (h : resolvePath L disk fs heap blockBuf stack path = .ok w) : [2] <+: w.searched := by
  obtain ⟨hnil, hhead⟩ := hrel
  have hroot : path.chars ≠ [slash] := by
    intro heq
    rw [heq] at hhead
    exact hhead rfl
  rw [resolvePath_loop hroot, if_neg hnil] at h
  simp only [if_neg hhead] at h
  rw [resolveNames, if_neg hnil] at h
  obtain ⟨r, -, h⟩ := bind_ok h
  dsimp only at h
  split at h
  · cases h
    exact List.prefix_rfl
  · exact resolveNames_searched h

theorem KernelShell.resolvePath_searched {s s' : KernelShell} (hs : s.searched = [])
    (hrel : Relative path.chars) (h : s.resolvePath L disk fs structs path = .ok (s', n)) :
    [2] <+: s'.searched := by
  obtain ⟨w, hw, heq⟩ := map_ok h
  cases heq
  change [2] <+: s.searched ++ w.searched
  rw [hs, List.nil_append]
  exact KernelCustom.resolvePath_searched hrel hw

/-- What printing, listing and running a program leave alone. -/
structure Kept (s s' : KernelShell) : Prop where
  cwd : s'.cwd = s.cwd
  inode : s'.gCwdInode = s.gCwdInode
  searched : s.searched <+: s'.searched

theorem KernelShell.resolvePath_kept {s s' : KernelShell}
    (h : s.resolvePath L disk fs structs path = .ok (s', n)) : Kept s s' := by
  obtain ⟨w, -, heq⟩ := map_ok h
  cases heq
  exact ⟨rfl, rfl, List.prefix_append _ _⟩

theorem KernelShell.lsPath_resolves {s s' : KernelShell}
    (h : s.lsPath L disk fs structs path = .ok s') :
    ∃ s₁ n, s.resolvePath L disk fs structs path = .ok (s₁, n) ∧ Kept s₁ s' := by
  obtain ⟨⟨s₁, n⟩, hresolve, h⟩ := bind_ok h
  refine ⟨s₁, n, hresolve, ?_⟩
  dsimp only at h
  split at h
  · obtain ⟨ino, -, h⟩ := bind_ok h
    split at h
    · obtain ⟨r, -, rfl⟩ := map_ok h
      exact ⟨rfl, rfl, List.prefix_append _ _⟩
    · cases h
      exact ⟨rfl, rfl, List.prefix_rfl⟩
  · cases h
    exact ⟨rfl, rfl, List.prefix_rfl⟩

theorem KernelShell.runUserProgramFromFile_resolves {s s' : KernelShell}
    (h : s.runUserProgramFromFile L disk fs programs structs path = .ok s') :
    ∃ s₁ n, s.resolvePath L disk fs structs path = .ok (s₁, n) ∧ Kept s₁ s' := by
  obtain ⟨⟨s₁, n⟩, hresolve, h⟩ := bind_ok h
  refine ⟨s₁, n, hresolve, ?_⟩
  dsimp only at h
  split at h
  · cases h
    exact ⟨rfl, rfl, List.prefix_rfl⟩
  obtain ⟨ino, -, h⟩ := bind_ok h
  split at h
  · cases h
    exact ⟨rfl, rfl, List.prefix_rfl⟩
  split at h
  · cases h
    exact ⟨rfl, rfl, List.prefix_rfl⟩
  split at h
  · cases h
    exact ⟨rfl, rfl, List.prefix_rfl⟩
  obtain ⟨⟨entryPoint, heap⟩, -, h⟩ := bind_ok h
  dsimp only at h
  split at h
  · cases h
    exact ⟨rfl, rfl, List.prefix_rfl⟩
  · obtain ⟨r, -, rfl⟩ := map_ok h
    exact ⟨rfl, rfl, List.prefix_rfl⟩

/-- Where a command that comes back has begun to look: `cat` in `g_cwd_node`, the others in
`g_cwd_inode` or in the root. -/
theorem handleCommand_searched {s s' : KernelShell} (hcmd : LooksUp cmd)
    (h : handleCommand L disk fs programs structs s cmd = .ok s') :
    (ascii "cat " <+: cmd.chars ∧ [s.cwd.internalId] <+: s'.searched) ∨
      (¬ ascii "cat " <+: cmd.chars ∧ ([s.gCwdInode] <+: s'.searched ∨ [2] <+: s'.searched)) := by
  have hother : ∀ c l, cmd.chars = c :: l → c ≠ 0x63 → ¬ ascii "cat " <+: cmd.chars := by
    rintro c l hc hne ⟨t, ht⟩
    rw [hc] at ht
    exact hne (List.cons.inj ht).1.symm
  rw [handleCommand] at h
  cases hcmd with
  | ls hls =>
    rw [parseCommand_ls hls] at h
    obtain ⟨r, -, rfl⟩ := map_ok h
    exact .inr ⟨hother _ _ hls (by decide), .inl List.prefix_rfl⟩
  | lsPath hls hrel =>
    rw [parseCommand_lsPath hls] at h
    obtain ⟨s₁, n, hresolve, hkept⟩ := KernelShell.lsPath_resolves h
    have hfirst := KernelShell.resolvePath_searched rfl hrel hresolve
    exact .inr ⟨hother _ _ hls (by decide), .inr (hfirst.trans hkept.searched)⟩
  | cat hcat hrel =>
    rw [parseCommand_cat hcat] at h
    obtain ⟨r, -, rfl⟩ := map_ok h
    refine .inl ⟨⟨_, hcat.symm⟩, ?_⟩
    dsimp only
    rw [if_neg hrel.1]
    exact List.prefix_rfl
  | program hrun =>
    rw [parseCommand_program hrun] at h
    have hrel : Relative cmd.chars := by
      rw [hrun]
      exact ⟨List.cons_ne_nil _ _, fun heq => absurd (Option.some.inj heq) (by decide)⟩
    obtain ⟨s₁, n, hresolve, hkept⟩ := KernelShell.runUserProgramFromFile_resolves h
    have hfirst := KernelShell.resolvePath_searched rfl hrel hresolve
    exact .inr ⟨hother _ _ hrun (by decide), .inr (hfirst.trans hkept.searched)⟩

/-- The line is a `cd` that leads from the current directory to the directory with that inode. -/
def MovesTo (L : Layout) (disk : Disk) (fs : FileSystem) (structs : Structs) (s : KernelShell)
    (cmd : Text) (n : Nat) : Prop :=
  ∃ path st ino, parseCommand cmd = .cd path ∧ path.chars ≠ [] ∧
    ext2Lookup L disk s.heap s.lookupBuf structs.lookup fs s.cwd.internalId path = .ok st ∧
    st.result = n ∧ n ≠ 0 ∧ readInode fs disk n structs.caller = .ok ino ∧ isDirectory ino = true

/-- The call of `ext2_cd` that the line `cd path` makes. -/
def KernelShell.cdCall (L : Layout) (disk : Disk) (fs : FileSystem) (structs : Structs)
    (s : KernelShell) (path : Text) : CdCall :=
  ⟨L, disk, s.heap, s.lookupBuf, structs.lookup, fs, path, structs.caller, s.out⟩

/-- What a command does to the current directory: as long as `g_cwd_path` stays in its array,
`g_cwd_inode` is never written, and only `ext2_cd` writes the rest. -/
theorem handleCommand_cwd {s s' : KernelShell}
    (h : handleCommand L disk fs programs structs s cmd = .ok s') :
    s'.gCwdInode = s.gCwdInode ∧ (s'.cwd = s.cwd ∨ ∃ path, parseCommand cmd = .cd path ∧
      s.cwd.cd (s.cdCall L disk fs structs path) = .ok s'.cwd) := by
  rw [handleCommand] at h
  dsimp only at h
  split at h
  case h_5 path hparse =>
    obtain ⟨r, hr, rfl⟩ := map_ok h
    refine ⟨rfl, .inr ⟨path, hparse, ?_⟩⟩
    exact congrArg (Except.map CdRun.cwd) hr
  case h_8 =>
    obtain ⟨s₁, n, hresolve, hkept⟩ := KernelShell.lsPath_resolves h
    have hstart := KernelShell.resolvePath_kept hresolve
    exact ⟨hkept.inode.trans hstart.inode, .inl (hkept.cwd.trans hstart.cwd)⟩
  case h_10 =>
    obtain ⟨s₁, n, hresolve, hkept⟩ := KernelShell.runUserProgramFromFile_resolves h
    have hstart := KernelShell.resolvePath_kept hresolve
    exact ⟨hkept.inode.trans hstart.inode, .inl (hkept.cwd.trans hstart.cwd)⟩
  case h_2 =>
    obtain ⟨r, -, rfl⟩ := map_ok h
    exact ⟨rfl, .inl rfl⟩
  case h_6 =>
    obtain ⟨r, -, rfl⟩ := map_ok h
    exact ⟨rfl, .inl rfl⟩
  case h_7 =>
    obtain ⟨r, -, rfl⟩ := map_ok h
    exact ⟨rfl, .inl rfl⟩
  all_goals
    cases h
    exact ⟨rfl, .inl rfl⟩

/-- `g_cwd_node` is written only by a `cd` that finds a directory. -/
theorem handleCommand_moves {s s' : KernelShell}
    (h : handleCommand L disk fs programs structs s cmd = .ok s') :
    s'.cwd.internalId = s.cwd.internalId ∨
      MovesTo L disk fs structs s cmd s'.cwd.internalId := by
  rcases (handleCommand_cwd h).2 with hsame | ⟨path, hparse, hcd⟩
  · exact .inl (congrArg Cwd.internalId hsame)
  · by_cases hnil : path.chars = []
    · rw [Cwd.cd_of_not_finds hcd fun hne => absurd hnil hne]
      exact .inl rfl
    · obtain ⟨r, hr, hcwd⟩ := map_ok hcd
      rw [hcwd]
      rcases ext2Cd_cases hr with hsame | ⟨st, ino, hst, hne, hino, hdir, hmoved, -⟩
      · exact .inl (congrArg Cwd.internalId hsame)
      · rw [hmoved]
        have hread := (readLocalInode_ok hino).1
        exact .inr ⟨path, st, ino, hparse, hnil, hst, rfl, hne, hread, hdir⟩

end

section
variable (L : Layout) (disk : Disk) (fs : FileSystem) (programs : Programs)

/-- Commands one after the other, each of which meets a condition and comes back. -/
inductive CommandRun (allowed : Structs → KernelShell → Text → Prop) (s : KernelShell) :
    KernelShell → Prop
  | start : CommandRun allowed s s
  | command {s' s'' : KernelShell} {structs : Structs} {cmd : Text} :
      CommandRun allowed s s' → allowed structs s' cmd →
      handleCommand L disk fs programs structs s' cmd = .ok s'' → CommandRun allowed s s''

/-- Every command that lists or looks up begins in the directory `g_cwd_node.internal_id`. -/
def SharesDirectory (s : KernelShell) : Prop :=
  ∀ structs cmd s', LooksUp cmd → handleCommand L disk fs programs structs s cmd = .ok s' →
    [s.cwd.internalId] <+: s'.searched

/-- The line does not lead away from the root. -/
def StaysAtRoot (structs : Structs) (s : KernelShell) (cmd : Text) : Prop :=
  ∀ n, MovesTo L disk fs structs s cmd n → n = 2

/-- A `cd` that puts a name behind the path finds room for it in the array. -/
def PathFits (structs : Structs) (s : KernelShell) (cmd : Text) : Prop :=
  ∀ path, parseCommand cmd = .cd path → (s.cdCall L disk fs structs path).Fits s.cwd

end

theorem CommandRun.mono {allowed allowed' : Structs → KernelShell → Text → Prop}
    (h : CommandRun L disk fs programs allowed s s')
    (himp : ∀ structs s cmd, allowed structs s cmd → allowed' structs s cmd) :
    CommandRun L disk fs programs allowed' s s' := by
  induction h with
  | start => exact .start
  | command _ hallowed hcmd ih => exact .command ih (himp _ _ _ hallowed) hcmd

theorem CommandRun.inode {s s' : KernelShell} (h : CommandRun L disk fs programs allowed s s') :
    s'.gCwdInode = s.gCwdInode := by
  induction h with
  | start => rfl
  | command _ _ hcmd ih => exact (handleCommand_cwd hcmd).1.trans ih

theorem CommandRun.atRoot {s s' : KernelShell}
    (h : CommandRun L disk fs programs (StaysAtRoot L disk fs) s s') (hid : s.cwd.internalId = 2) :
    s'.cwd.internalId = 2 := by
  induction h with
  | start => exact hid
  | command _ hstay hcmd ih =>
    rcases handleCommand_moves hcmd with hsame | hmoves
    · exact hsame.trans ih
    · exact hstay _ hmoves

theorem CommandRun.inBounds {s s' : KernelShell}
    (h : CommandRun L disk fs programs (PathFits L disk fs) s s') (hb : s.cwd.InBounds) :
    s'.cwd.InBounds := by
  induction h with
  | start => exact hb
  | command _ hfits hcmd ih =>
    rcases (handleCommand_cwd hcmd).2 with hsame | ⟨path, hparse, hcd⟩
    · rw [hsame]
      exact ih
    · exact (ih.cd hcd).1 (hfits path hparse)

/-- The commands share one directory as long as no `cd` leads away from the root: `ls`, `ls p` and
`./p` always begin in the root, and only `cat p` begins in the directory that `cd` sets. Every `cd`
must leave `g_cwd_path` in its array, behind which `g_cwd_inode` lies. -/
theorem one_current_directory {s₀ : KernelShell} (hid : s₀.cwd.internalId = 2)
    (hinode : s₀.gCwdInode = 2) (hpath : Spells s₀.cwd.gCwdPath [slash])
    (hwrites : s₀.cwd.writes = []) :
    (∀ s, CommandRun L disk fs programs
        (fun structs s cmd => StaysAtRoot L disk fs structs s cmd ∧
          PathFits L disk fs structs s cmd) s₀ s →
      s.cwd.InBounds ∧ SharesDirectory L disk fs programs s) ∧
    ∀ s, CommandRun L disk fs programs (PathFits L disk fs) s₀ s → s.cwd.InBounds ∧
      ∀ structs cmd s', LooksUp cmd → handleCommand L disk fs programs structs s cmd = .ok s' →
        ([s.cwd.internalId] <+: s'.searched ↔
          ascii "cat " <+: cmd.chars ∨ s.cwd.internalId = 2) := by
  have hb : s₀.cwd.InBounds := Cwd.InBounds.start hpath hwrites
  constructor
  · intro s hrun
    refine ⟨(hrun.mono fun _ _ _ h => h.2).inBounds hb, fun structs cmd s' hlooks hcmd => ?_⟩
    have hroot := (hrun.mono fun _ _ _ h => h.1).atRoot hid
    have hfirst := handleCommand_searched hlooks hcmd
    rw [hroot, hrun.inode.trans hinode, or_self] at hfirst
    rw [hroot]
    rcases hfirst with ⟨-, h⟩ | ⟨-, h⟩
    · exact h
    · exact h
  · intro s hrun
    refine ⟨hrun.inBounds hb, fun structs cmd s' hlooks hcmd => ?_⟩
    have hfirst := handleCommand_searched hlooks hcmd
    rw [hrun.inode.trans hinode, or_self] at hfirst
    rcases hfirst with ⟨hcat, h⟩ | ⟨hcat, hroot⟩
    · exact iff_of_true h (.inl hcat)
    · constructor
      · rintro ⟨l', hl'⟩
        obtain ⟨l, hl⟩ := hroot
        rw [← hl] at hl'
        exact .inr (List.cons.inj hl').1
      · rintro (h | hid)
        · exact absurd h hcat
        · rw [hid]
          exact hroot

/-- The shell at the start of a run on the image with the directory `d`. -/
def nestedShell : KernelShell :=
  ⟨heapInit Layout.sample bootMemory, zeroed, zeroed, zeroed, zeroed, 2, rootShell.cwd, ⟨[], []⟩,
    []⟩

def noStructs : Structs := ⟨fun _ => zeroed, zeroed, zeroed, zeroed⟩

/-- A loader that refuses every program. -/
def noPrograms : Programs := ⟨fun _ m => .ok (none, m), fun _ _ r => .ok r, fun r => .ok r⟩

/-- `cd ..` at the root leads to the root, and `ls` behind it lists the directory that `cat` looks
in. -/
theorem root_commands_share_directory :
    ∃ fs s s', mount nestedImage zeroed = .ok fs ∧
      handleCommand Layout.sample nestedImage fs noPrograms noStructs nestedShell (word "cd ..") =
        .ok s ∧
      SharesDirectory Layout.sample nestedImage fs noPrograms s ∧
      handleCommand Layout.sample nestedImage fs noPrograms noStructs s (word "ls") = .ok s' ∧
      [s.cwd.internalId] <+: s'.searched := by
  obtain ⟨fs, hm, hcd, hlook⟩ := exists_ok (x := mount nestedImage zeroed)
    (P := fun fs =>
      (handleCommand Layout.sample nestedImage fs noPrograms noStructs nestedShell
        (word "cd ..")).map (fun s =>
          decide ((handleCommand Layout.sample nestedImage fs noPrograms noStructs s
            (word "ls")).map (fun _ => decide True) = .ok true)) = .ok true ∧
      (ext2Lookup Layout.sample nestedImage nestedShell.heap nestedShell.lookupBuf zeroed fs 2
        dotDot).map (fun st => decide (st.result = 2)) = .ok true) (by decide +kernel)
  obtain ⟨s, hs, hls⟩ := exists_ok hcd
  obtain ⟨s', hs', -⟩ := exists_ok hls
  obtain ⟨st, hst, hroot⟩ := exists_ok hlook
  have hparse : parseCommand (word "cd ..") = .cd dotDot := by decide
  have hstays : StaysAtRoot Layout.sample nestedImage fs noStructs nestedShell (word "cd ..") := by
    rintro n ⟨path, st', ino, hpath, -, hst', rfl, -⟩
    cases Command.cd.inj (hparse.symm.trans hpath)
    cases Except.ok.inj (hst.symm.trans hst')
    exact hroot
  have hfits : PathFits Layout.sample nestedImage fs noStructs nestedShell (word "cd ..") := by
    intro path hpath
    cases Command.cd.inj (hparse.symm.trans hpath)
    exact fun _ _ hne => absurd rfl hne
  obtain ⟨-, hshare⟩ := (one_current_directory rfl rfl rootShell_path rfl).1 s
    (.command .start ⟨hstays, hfits⟩ hs)
  exact ⟨fs, s, s', hm, hs, hshare, hs', hshare noStructs (word "ls") s' (.ls rfl) hs'⟩

/-- After `cd d`, `ls` still lists the root. -/
theorem ls_ignores_cd : ∃ fs s s', mount nestedImage zeroed = .ok fs ∧
    handleCommand Layout.sample nestedImage fs noPrograms noStructs nestedShell (word "cd d") =
      .ok s ∧ s.cwd.internalId = 11 ∧
    handleCommand Layout.sample nestedImage fs noPrograms noStructs s (word "ls") = .ok s' ∧
    s'.searched = [2] ∧ ¬ SharesDirectory Layout.sample nestedImage fs noPrograms s := by
  obtain ⟨fs, hm, hcd⟩ := exists_ok (x := mount nestedImage zeroed)
    (P := fun fs => (handleCommand Layout.sample nestedImage fs noPrograms noStructs nestedShell
      (word "cd d")).map (fun s => decide (s.cwd.internalId = 11 ∧
        (handleCommand Layout.sample nestedImage fs noPrograms noStructs s (word "ls")).map
          (fun s' => decide (s'.searched = [2])) = .ok true)) = .ok true) (by decide +kernel)
  obtain ⟨s, hs, hid, hls⟩ := exists_ok hcd
  obtain ⟨s', hs', hsearched⟩ := exists_ok hls
  refine ⟨fs, s, s', hm, hs, hid, hs', hsearched, fun hshare => ?_⟩
  have hfirst := hshare noStructs (word "ls") s' (.ls rfl) hs'
  rw [hid, hsearched] at hfirst
  exact absurd hfirst (by decide)

end KernelCustom
