import Mathlib.Tactic.Common
import Mathlib.Logic.Function.Basic

namespace Pic8259
set_option autoImplicit true

/-- What a chip takes the next byte at its data port for. -/
inductive Setup where
  | icw2 (single fourth : Bool)
  | icw3 (fourth : Bool)
  | icw4
  | ready
  deriving DecidableEq

/-- What the bytes at its two ports make of a chip. -/
structure Registers where
  setup : Setup
  base : UInt8
  mask : UInt8
  levels : Bool
  autoEoi : Bool
  inService : Nat → Bool

/-- A chip with its request lines, and which of them have risen and not been served since. -/
structure Chip where
  regs : Registers
  line : Nat → Bool
  risen : Nat → Bool

def Registers.serve (r : Registers) (i : Nat) (b : Bool) : Registers :=
  { r with inService := Function.update r.inService i b }

/-- The end of interrupt that names no line: the one of the highest priority is meant. -/
def Registers.endOfInterrupt (r : Registers) : Registers :=
  match (List.range 8).find? r.inService with
  | some i => r.serve i false
  | none => r

/-- A byte at the command port. What OCW3 and the rotation of priorities do is not followed. -/
def Registers.command (r : Registers) (b : UInt8) : Registers :=
  if b &&& 0x10 ≠ 0 then
    ⟨.icw2 (b &&& 2 ≠ 0) (b &&& 1 ≠ 0), r.base, 0, b &&& 8 ≠ 0, false, fun _ => false⟩
  else if b &&& 8 ≠ 0 then r
  else if b &&& 0xE0 = 0x20 then r.endOfInterrupt
  else if b &&& 0xE0 = 0x60 then r.serve (b &&& 7).toNat false
  else r

/-- A byte at the data port: the rest of the initialisation, and then the mask. -/
def Registers.data (r : Registers) (b : UInt8) : Registers :=
  match r.setup with
  | .icw2 single fourth =>
    { r with
      base := b &&& 0xF8
      setup := if single then (if fourth then .icw4 else .ready) else .icw3 fourth }
  | .icw3 fourth => { r with setup := if fourth then .icw4 else .ready }
  | .icw4 => { r with setup := .ready, autoEoi := b &&& 2 ≠ 0 }
  | .ready => { r with mask := b }

/-- ICW1 also forgets the edges: a line that is up has to rise again. -/
def Chip.command (c : Chip) (b : UInt8) : Chip :=
  { c with
    regs := c.regs.command b
    risen := if b &&& 0x10 ≠ 0 then fun _ => false else c.risen }

def Chip.data (c : Chip) (b : UInt8) : Chip := { c with regs := c.regs.data b }

/-- A line goes up or down; a request whose line goes down is withdrawn. -/
def Chip.setLine (c : Chip) (i : Nat) (up : Bool) : Chip :=
  { c with
    line := Function.update c.line i up
    risen := Function.update c.risen i (up && (c.risen i || !c.line i)) }

def Chip.pending (c : Chip) (i : Nat) : Bool :=
  c.line i && (c.regs.levels || c.risen i) && !c.regs.mask.toNat.testBit i

/-- A request that is served next: none of its own or a higher priority is in service. -/
def Chip.eligible (c : Chip) (i : Nat) : Bool :=
  c.pending i && (List.range 8).all fun j => !(decide (j ≤ i) && c.regs.inService j)

def Chip.request (c : Chip) : Option Nat := (List.range 8).find? c.eligible

/-- The answer to the processor. Without a request it is the last line. -/
def Chip.acknowledge (c : Chip) : Nat × Chip :=
  match c.request with
  | some i =>
    (i, { c with
      regs := if c.regs.autoEoi then c.regs else c.regs.serve i true
      risen := Function.update c.risen i false })
  | none => (7, c)

def Chip.vector (c : Chip) (i : Nat) : UInt8 := c.regs.base + .ofNat i

/-- The two chips of a PC. The second one asks through line 2 of the first. -/
structure Pair where
  master : Chip
  slave : Chip

def Pair.cascade (p : Pair) : Pair :=
  { p with master := p.master.setLine 2 p.slave.request.isSome }

def Pair.write (p : Pair) (port : UInt16) (b : UInt8) : Pair :=
  if port = 0x20 then { p with master := p.master.command b }
  else if port = 0x21 then { p with master := p.master.data b }
  else if port = 0xA0 then { p with slave := p.slave.command b }.cascade
  else if port = 0xA1 then { p with slave := p.slave.data b }.cascade
  else p

/-- One of the lines 0 to 15. -/
def Pair.setIrq (p : Pair) (i : Nat) (up : Bool) : Pair :=
  if i < 8 then { p with master := p.master.setLine i up }
  else { p with slave := p.slave.setLine (i - 8) up }.cascade

def Pair.asserts (p : Pair) : Bool := p.master.request.isSome

/-- The vector that the processor gets. -/
def Pair.acknowledge (p : Pair) : UInt8 × Pair :=
  let (i, master) := p.master.acknowledge
  if i = 2 then
    let (j, slave) := p.slave.acknowledge
    (slave.vector j, { master, slave : Pair }.cascade)
  else (master.vector i, { p with master })

@[simp]
theorem Registers.serve_inService (r : Registers) (i : Nat) (b : Bool) :
    (r.serve i b).inService i = b := by simp only [Registers.serve, Function.update_self]

theorem Registers.serve_inService_of_ne (r : Registers) (h : i ≠ j) (b : Bool) :
    (r.serve j b).inService i = r.inService i := Function.update_of_ne h _ _

/-- A search that can only find one line. -/
theorem find_of_only {p : Nat → Bool} (hi : i < 8) (h : ∀ j < 8, j ≠ i → p j = false) :
    (List.range 8).find? p = if p i then some i else none := by
  cases hfind : (List.range 8).find? p with
  | none =>
    have hnot : ¬ p i = true := List.find?_eq_none.1 hfind i (List.mem_range.2 hi)
    rw [if_neg hnot]
  | some j =>
    have hj : p j = true := List.find?_some hfind
    have heq : j = i := by
      by_contra hne
      rw [h j (List.mem_range.1 (List.mem_of_find?_eq_some hfind)) hne] at hj
      exact Bool.noConfusion hj
    rw [← heq, if_pos hj]

/-- Edge triggered, with every line masked but one, which alone can be in service. -/
structure Registers.Only (r : Registers) (v : UInt8) (i : Nat) : Prop where
  line : i < 8
  setup : r.setup = .ready
  base : r.base = v
  masked : ∀ j < 8, j ≠ i → r.mask.toNat.testBit j = true
  unmasked : r.mask.toNat.testBit i = false
  levels : r.levels = false
  autoEoi : r.autoEoi = false
  inService : ∀ j < 8, j ≠ i → r.inService j = false

theorem Registers.Only.serve {r : Registers} (h : r.Only v i) (b : Bool) :
    (r.serve i b).Only v i :=
  ⟨h.line, h.setup, h.base, h.masked, h.unmasked, h.levels, h.autoEoi, fun j hj hne =>
    (r.serve_inService_of_ne hne b).trans (h.inService j hj hne)⟩

/-- An end of interrupt means the only line, and a second one changes nothing. -/
theorem Registers.Only.endOfInterrupt {r : Registers} (h : r.Only v i) :
    r.endOfInterrupt = r.serve i false := by
  rw [Registers.endOfInterrupt, find_of_only h.line h.inService]
  cases hi : r.inService i with
  | true => rfl
  | false =>
    have hsame : Function.update r.inService i false = r.inService := by
      rw [← hi, Function.update_eq_self]
    rw [Registers.serve, hsame]
    rfl

theorem Chip.Only.request {c : Chip} (h : c.regs.Only v i) :
    c.request = if c.line i && c.risen i && !c.regs.inService i then some i else none := by
  have hother : ∀ j < 8, j ≠ i → c.eligible j = false := by
    intro j hj hne
    rw [eligible, pending, h.masked j hj hne, Bool.not_true, Bool.and_false, Bool.false_and]
  have hfree : ((List.range 8).all fun j => !(decide (j ≤ i) && c.regs.inService j)) =
      !c.regs.inService i := by
    cases hi : c.regs.inService i with
    | true =>
      refine List.all_eq_false.2 ⟨i, List.mem_range.2 h.line, ?_⟩
      rw [hi, decide_eq_true (Nat.le_refl i)]
      exact Bool.false_ne_true
    | false =>
      refine List.all_eq_true.2 fun j hmem => ?_
      have hj : c.regs.inService j = false := by
        by_cases heq : j = i
        · rw [heq]
          exact hi
        · exact h.inService j (List.mem_range.1 hmem) heq
      rw [hj, Bool.and_false]
      rfl
  rw [Chip.request, find_of_only h.line hother, eligible, pending, h.levels, h.unmasked, hfree,
    Bool.false_or, Bool.not_false, Bool.and_true]

theorem Chip.Only.acknowledge {c : Chip} (h : c.regs.Only v i) (hreq : c.request.isSome) :
    c.line i = true ∧ c.risen i = true ∧ c.acknowledge =
      (i, ⟨c.regs.serve i true, c.line, Function.update c.risen i false⟩) := by
  have hrequest := Chip.Only.request h
  by_cases hcond : (c.line i && c.risen i && !c.regs.inService i) = true
  · rw [if_pos hcond] at hrequest
    simp only [Bool.and_eq_true] at hcond
    refine ⟨hcond.1.1, hcond.1.2, ?_⟩
    rw [Chip.acknowledge, hrequest]
    dsimp only
    rw [h.autoEoi]
    rfl
  · rw [if_neg hcond] at hrequest
    rw [hrequest] at hreq
    cases hreq

@[simp]
theorem Chip.setLine_regs (c : Chip) (i : Nat) (up : Bool) : (c.setLine i up).regs = c.regs :=
  rfl

@[simp]
theorem Chip.setLine_line (c : Chip) (i : Nat) (up : Bool) :
    (c.setLine i up).line i = up := by simp only [setLine, Function.update_self]

@[simp]
theorem Chip.setLine_risen (c : Chip) (i : Nat) (up : Bool) :
    (c.setLine i up).risen i = (up && (c.risen i || !c.line i)) := by
  simp only [setLine, Function.update_self]

theorem Chip.setLine_line_of_ne (c : Chip) (h : i ≠ j) (up : Bool) :
    (c.setLine j up).line i = c.line i := Function.update_of_ne h _ _

theorem Chip.setLine_risen_of_ne (c : Chip) (h : i ≠ j) (up : Bool) :
    (c.setLine j up).risen i = c.risen i := Function.update_of_ne h _ _

/-! The first chip of a pair. -/

/-- What a byte at one of its ports does to the first chip's registers. -/
def Registers.write (r : Registers) (port : UInt16) (b : UInt8) : Registers :=
  if port = 0x20 then r.command b else if port = 0x21 then r.data b else r

theorem Pair.write_regs (p : Pair) (port : UInt16) (b : UInt8) :
    (p.write port b).master.regs = p.master.regs.write port b := by
  rw [Pair.write, Registers.write]
  by_cases h₀ : port = 0x20
  · rw [if_pos h₀, if_pos h₀]
    rfl
  rw [if_neg h₀, if_neg h₀]
  by_cases h₁ : port = 0x21
  · rw [if_pos h₁, if_pos h₁]
    rfl
  rw [if_neg h₁, if_neg h₁]
  split
  · rfl
  split <;> rfl

theorem Pair.write_line (p : Pair) (hi : i ≠ 2) (port : UInt16) (b : UInt8) :
    (p.write port b).master.line i = p.master.line i := by
  rw [Pair.write]
  split
  · rfl
  split
  · rfl
  split
  · exact Chip.setLine_line_of_ne _ hi _
  split
  · exact Chip.setLine_line_of_ne _ hi _
  · rfl

/-- Only an ICW1 forgets that a line has risen. -/
theorem Pair.write_risen (p : Pair) (hi : i ≠ 2) (port : UInt16) (b : UInt8) :
    (p.write port b).master.risen i =
      (p.master.risen i && !decide (port = 0x20 ∧ b &&& 0x10 ≠ 0)) := by
  rw [Pair.write]
  by_cases h₀ : port = 0x20
  · rw [if_pos h₀]
    by_cases hb : b &&& 0x10 ≠ 0
    · rw [decide_eq_true ⟨h₀, hb⟩, Bool.not_true, Bool.and_false]
      exact congrFun (if_pos hb) i
    · rw [decide_eq_false fun h => hb h.2, Bool.not_false, Bool.and_true]
      exact congrFun (if_neg hb) i
  rw [if_neg h₀, decide_eq_false fun h => h₀ h.1, Bool.not_false, Bool.and_true]
  split
  · rfl
  split
  · exact Chip.setLine_risen_of_ne _ hi _
  split
  · exact Chip.setLine_risen_of_ne _ hi _
  · rfl

theorem Pair.setIrq_regs (p : Pair) (i : Nat) (up : Bool) :
    (p.setIrq i up).master.regs = p.master.regs := by
  rw [Pair.setIrq]
  split <;> rfl

/-- The other lines leave a line of the first chip alone. -/
theorem Pair.setIrq_of_ne (p : Pair) (hi : i ≠ 2) (hne : j ≠ i) (up : Bool) :
    (p.setIrq j up).master.line i = p.master.line i ∧
      (p.setIrq j up).master.risen i = p.master.risen i := by
  rw [Pair.setIrq]
  by_cases hj : j < 8
  · rw [if_pos hj]
    exact ⟨Chip.setLine_line_of_ne _ hne.symm _, Chip.setLine_risen_of_ne _ hne.symm _⟩
  · rw [if_neg hj]
    exact ⟨Chip.setLine_line_of_ne _ hi _, Chip.setLine_risen_of_ne _ hi _⟩

/-- While only one line of the first chip is open, nothing else reaches the processor. -/
theorem Pair.acknowledge_of_only {p : Pair} (h : p.master.regs.Only v i) (hi : i ≠ 2)
    (hint : p.asserts = true) : p.master.line i = true ∧ p.master.risen i = true ∧
      p.acknowledge = (v + .ofNat i, { p with master :=
        ⟨p.master.regs.serve i true, p.master.line, Function.update p.master.risen i false⟩ }) := by
  obtain ⟨hline, hrisen, hack⟩ := Chip.Only.acknowledge h hint
  refine ⟨hline, hrisen, ?_⟩
  rw [Pair.acknowledge, hack]
  dsimp only
  rw [if_neg hi, Chip.vector]
  dsimp only
  rw [Registers.serve, h.base]

/-- A line that has risen, is open and not in service is a request. -/
theorem Pair.asserts_of_only {p : Pair} (h : p.master.regs.Only v i)
    (hline : p.master.line i = true) (hrisen : p.master.risen i = true)
    (hfree : p.master.regs.inService i = false) : p.asserts = true := by
  rw [Pair.asserts, Chip.Only.request h, hline, hrisen, hfree]
  rfl

end Pic8259
