import Ls8.Channel
import Ls8.Cpu

/-! A machine is a processor with the channel it prints to. A step is split in two: what an
instruction asks for, which depends on the registers alone, and how the machine carries it out. -/
namespace Ls8

/-- What an instruction asks for. The last two are followed by a move of the counter. -/
inductive Effect where
  | halt
  | goto (target : UInt8)
  | update (regs : Registers)
  | print (value : UInt8)
  deriving DecidableEq

def Condition.holds (f : Flags) : Condition → Bool
  | always => true
  | equal => f.equal
  | different => !f.equal

/-- Shifts fill with zeros, and by eight or more they leave nothing. -/
def BinaryOp.apply (x y : UInt8) : BinaryOp → Except Fault UInt8
  | and => .ok (x &&& y)
  | or => .ok (x ||| y)
  | xor => .ok (x ^^^ y)
  | shl => .ok (if y < 8 then x <<< y else 0)
  | shr => .ok (if y < 8 then x >>> y else 0)
  | mod => if y = 0 then .error .divideByZero else .ok (x % y)

namespace Registers

def read (r : Registers) (i : UInt8) : Except Fault UInt8 := (r.get i).mapError .register

def store (r : Registers) (i b : UInt8) : Except Fault Effect :=
  ((r.set i b).mapError .register).map .update

end Registers

/-- A jump that is not taken does not look at its register. -/
def Instruction.effect (r : Registers) : Instruction → Except Fault Effect
  | halt => .ok .halt
  | jump c reg => if c.holds r.flags then (r.read reg).map .goto else .ok (.update r)
  | load reg value => r.store reg value
  | print reg => (r.read reg).map .print
  | compare a b => do
    let x ← r.read a
    let y ← r.read b
    return .update (r.compare x y)
  | complement reg => do
    let x ← r.read reg
    r.store reg (~~~x)
  | binary op a b => do
    let x ← r.read a
    let y ← r.read b
    r.store a (← op.apply x y)

structure Machine where
  cpu : Cpu
  out : Channel
  deriving DecidableEq

namespace Machine

def setStatus (m : Machine) (s : Status) : Machine := { m with cpu := { m.cpu with status := s } }

def setRegs (m : Machine) (r : Registers) : Machine := { m with cpu := { m.cpu with regs := r } }

def count (m : Machine) (i : Instruction) : Machine :=
  { m with cpu := { m.cpu with cycles := m.cpu.cycles + 1, last := some i } }

def line (value : UInt8) : List Char := Text.decimal value.toNat ++ ['\n']

/-- Moves the counter on; the machine stays as it is where the counter cannot move. -/
def advance (m : Machine) (width : Nat) : Except Fault Unit × Machine :=
  match m.cpu.regs.advance width with
  | .ok r => (.ok (), m.setRegs r)
  | .error e => (.error (.register e), m)

def perform (m : Machine) (width : Nat) : Effect → Except Fault Unit × Machine
  | .halt => (.ok (), m.setStatus .halted)
  | .goto target => (.ok (), m.setRegs (m.cpu.regs.jump target))
  | .update r => (m.setRegs r).advance width
  | .print value =>
    let fits := m.out.fits (line value)
    let printed : Machine := { m with out := m.out.put (line value) }
    if fits then printed.advance width else (.error .output, printed)

def execute (m : Machine) (i : Instruction) : Except Fault Unit × Machine :=
  match i.effect m.cpu.regs with
  | .ok e => m.perform i.width e
  | .error f => (.error f, m)

theorem cycles_advance (m : Machine) (width : Nat) :
    (m.advance width).2.cpu.cycles = m.cpu.cycles := by
  unfold advance
  split <;> rfl

theorem cycles_perform (m : Machine) (width : Nat) (e : Effect) :
    (m.perform width e).2.cpu.cycles = m.cpu.cycles := by
  cases e with
  | halt => rfl
  | goto target => rfl
  | update r => exact cycles_advance _ width
  | print v =>
    simp only [perform]
    split
    · exact cycles_advance _ width
    · rfl

/-- Executes the instruction at the counter. A fault puts a running processor into the error
status for good; a processor that does not run is left as it is. -/
def step (m : Machine) : Except Fault Instruction × Machine :=
  if m.cpu.isRunning then
    match m.cpu.fetch with
    | .error f => (.error f, m.setStatus .error)
    | .ok i =>
      match m.execute i with
      | (.ok (), m') => (.ok i, m'.count i)
      | (.error f, m') => (.error f, m'.setStatus .error)
  else (.error (.notRunning m.cpu.status), m)

theorem cycles_step {m m' : Machine} {i : Instruction} (h : m.step = (.ok i, m')) :
    m'.cpu.cycles = m.cpu.cycles + 1 := by
  unfold step at h
  split at h
  · split at h
    · cases h
    · next j _ =>
      have same : (m.execute j).2.cpu.cycles = m.cpu.cycles := by
        unfold execute
        split
        · exact cycles_perform m _ _
        · rfl
      split at h
      · next done =>
        cases h
        rw [done] at same
        exact congrArg (· + 1) same
      · cases h
  · cases h

end Machine
end Ls8
