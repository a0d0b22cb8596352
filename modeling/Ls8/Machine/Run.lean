import Ls8.Machine

/-! Runs of many steps. Every run is a run of at most so many steps, and one that may take as long
as it likes is cut off where it is known not to end or its steps can no longer be counted. -/
namespace Ls8.Machine

inductive Ending where
  | stopped
  | failed (f : Fault)
  | cutOff
  deriving DecidableEq

def steps : Nat → Machine → Ending × Machine
  | 0, m => (if m.cpu.isRunning then .cutOff else .stopped, m)
  | n + 1, m =>
    if m.cpu.isRunning then
      match m.step with
      | (.ok _, m') => steps n m'
      | (.error f, m') => (.failed f, m')
    else (.stopped, m)

theorem toNat_add_of_room {a b : UInt64} (room : a.toNat + b.toNat < UInt64.size) :
    (a + b).toNat = a.toNat + b.toNat := by
  rw [UInt64.toNat_add]
  exact Nat.mod_eq_of_lt room

def largest : UInt64 := (UInt64.size - 1).toUInt64

def saturate (a b : UInt64) : UInt64 :=
  if a.toNat + b.toNat < UInt64.size then a + b else largest

def remaining (limit : UInt64) (m : Machine) : Nat := limit.toNat - m.cpu.cycles.toNat

theorem remaining_step {limit : UInt64} {m m' : Machine} {i : Instruction}
    (below : m.cpu.cycles < limit) (h : m.step = (.ok i, m')) :
    remaining limit m = remaining limit m' + 1 := by
  have before : m.cpu.cycles.toNat < limit.toNat := UInt64.lt_iff_toNat_lt.mp below
  have room : m.cpu.cycles.toNat + (1 : UInt64).toNat < UInt64.size :=
    Nat.lt_of_le_of_lt before limit.toNat_lt
  have counted : m'.cpu.cycles.toNat = m.cpu.cycles.toNat + 1 := by
    rw [cycles_step h, toNat_add_of_room room]
    rfl
  unfold remaining
  omega

def runBelow (limit : UInt64) (m : Machine) : Except Fault Unit × Machine :=
  if m.cpu.isRunning = true ∧ m.cpu.cycles < limit then
    match _ : m.step with
    | (.ok _, m') => runBelow limit m'
    | (.error f, m') => (.error f, m')
  else (.ok (), m)
  termination_by remaining limit m
  decreasing_by
    have counted := remaining_step (And.right ‹_ ∧ _›) ‹m.step = _›
    omega

theorem runBelow_step {limit : UInt64} {m m' : Machine} {i : Instruction}
    (more : m.cpu.isRunning = true ∧ m.cpu.cycles < limit) (h : m.step = (.ok i, m')) :
    m.runBelow limit = m'.runBelow limit := by
  rw [runBelow, if_pos more]
  split
  · next taken =>
    cases h.symm.trans taken
    rfl
  · next taken => cases h.symm.trans taken

theorem runBelow_failed {limit : UInt64} {m m' : Machine} {f : Fault}
    (more : m.cpu.isRunning = true ∧ m.cpu.cycles < limit) (h : m.step = (.error f, m')) :
    m.runBelow limit = (.error f, m') := by
  rw [runBelow, if_pos more]
  split
  · next taken => cases h.symm.trans taken
  · next taken =>
    cases h.symm.trans taken
    rfl

theorem runBelow_stopped {limit : UInt64} {m : Machine}
    (h : ¬ (m.cpu.isRunning = true ∧ m.cpu.cycles < limit)) : m.runBelow limit = (.ok (), m) := by
  rw [runBelow, if_neg h]

/-- Runs for at most so many instructions, and for no more than can be counted. The answer is the
number of instructions executed. -/
def runLimited (m : Machine) (most : UInt64) : Except Fault UInt64 × Machine :=
  match m.runBelow (saturate m.cpu.cycles most) with
  | (.error f, m') => (.error f, m')
  | (.ok (), m') => (.ok (m'.cpu.cycles - m.cpu.cycles), m')

/-- Runs until the processor stops; `none` if it does not while 64 bits hold the number of
instructions executed. -/
def run (m : Machine) : Option (Except Fault UInt64 × Machine) :=
  match steps (UInt64.size - 1) m with
  | (.cutOff, _) => none
  | (.failed f, m') => some (.error f, m')
  | (.stopped, m') => some (.ok (m'.cpu.cycles - m.cpu.cycles), m')

end Ls8.Machine
