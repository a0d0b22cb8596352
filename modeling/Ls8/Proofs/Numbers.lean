import Mathlib
import Ls8.Machine

/-! The machine told in natural numbers. Cells, registers and the counter are numbers below 256,
an opcode is a numeral whose two high bits say how many operands follow, and an instruction is the
list of its numbers. Nothing here uses the opcode table, the decoder or byte arithmetic. -/
namespace Ls8.Numbers

structure State where
  memory : List Nat
  general : List Nat
  pc : Nat
  equal : Bool
  greater : Bool
  less : Bool
  status : Status
  cycles : Nat
  last : Option (List Nat)
  printed : String
  deriving DecidableEq

/-- HLT, LDI, PRN, JMP, JEQ, JNE, CMP, AND, OR, NOT, SHL, SHR, MOD, XOR. -/
def opcodes : List Nat := [1, 130, 71, 84, 85, 86, 167, 161, 165, 110, 171, 172, 166, 169]

namespace State

def cell (s : State) (a : Nat) : Except Fault Nat :=
  match s.memory[a]? with
  | some v => .ok v
  | none => .error (.memory (.noCell a))

/-- The numbers of the instruction at the counter: its opcode, then no, one or two operands. -/
def fetch (s : State) : Except Fault (List Nat) := do
  let op ← s.cell s.pc
  if op ∈ opcodes then
    match op >>> 6 with
    | 0 => return [op]
    | 1 => return [op, ← s.cell (s.pc + 1)]
    | _ => return [op, ← s.cell (s.pc + 1), ← s.cell (s.pc + 2)]
  else .error (.decode s.pc.toUInt8 (.unknownOpcode op.toUInt8))

def register (s : State) (x : Nat) : Except Fault Nat :=
  match s.general[x]? with
  | some v => .ok v
  | none => .error (.register (.noRegister x.toUInt8))

def put (s : State) (x v : Nat) : Except Fault State :=
  if x < 8 then .ok { s with general := s.general.set x v }
  else .error (.register (.noRegister x.toUInt8))

def combine (s : State) (x y : Nat) (f : Nat → Nat → Except Fault Nat) : Except Fault State := do
  let a ← s.register x
  let b ← s.register y
  let v ← f a b
  s.put x v

def print (s : State) (x : Nat) : Except Fault State := do
  let a ← s.register x
  return { s with printed := s.printed ++ (toString a ++ "\n") }

def compare (s : State) (x y : Nat) : Except Fault State := do
  let a ← s.register x
  let b ← s.register y
  return { s with equal := decide (a = b), greater := decide (b < a), less := decide (a < b) }

def complement (s : State) (x : Nat) : Except Fault State := do
  let a ← s.register x
  s.put x (255 - a)

/-- What an instruction that neither halts nor jumps does before the counter moves on. -/
def change (s : State) (op x y : Nat) : Except Fault State :=
  match op with
  | 130 => s.put x y
  | 71 => s.print x
  | 167 => s.compare x y
  | 161 => s.combine x y fun a b => .ok (a &&& b)
  | 165 => s.combine x y fun a b => .ok (a ||| b)
  | 169 => s.combine x y fun a b => .ok (a ^^^ b)
  | 171 => s.combine x y fun a b => .ok (a * 2 ^ b % 256)
  | 172 => s.combine x y fun a b => .ok (a / 2 ^ b)
  | 166 => s.combine x y fun a b => if b = 0 then .error .divideByZero else .ok (a % b)
  | 110 => s.complement x
  | _ => .ok s

def jumps (s : State) (op : Nat) : Bool :=
  op = 84 || (op = 85 && s.equal) || (op = 86 && !s.equal)

def advance (s : State) (width : Nat) : Except Fault Unit × State :=
  let next := s.pc + width
  if 255 < next then (.error (.register (.pastEnd next)), s)
  else (.ok (), { s with pc := next })

/-- An instruction whose counter cannot move on has done its work all the same. -/
def perform (s : State) (op x y : Nat) : Except Fault Unit × State :=
  if op = 1 then (.ok (), { s with status := .halted })
  else if s.jumps op then
    match s.register x with
    | .ok a => (.ok (), { s with pc := a })
    | .error f => (.error f, s)
  else match s.change op x y with
    | .ok s => s.advance (1 + op >>> 6)
    | .error f => (.error f, s)

def step (s : State) : Except Fault (List Nat) × State :=
  if s.status = .running then
    match s.fetch with
    | .error f => (.error f, { s with status := .error })
    | .ok word =>
      match s.perform (word.getD 0 0) (word.getD 1 0) (word.getD 2 0) with
      | (.ok (), s) => (.ok word, { s with cycles := (s.cycles + 1) % 2 ^ 64, last := some word })
      | (.error f, s) => (.error f, { s with status := .error })
  else (.error (.notRunning s.status), s)

end State
end Ls8.Numbers
