import Ls8.Instruction
import Ls8.Memory
import Ls8.Registers

/-! The processor with its memory, what can go wrong in it, and how it fetches. -/
namespace Ls8

open Text (decimal)

inductive Status where
  | running | halted | error
  deriving DecidableEq

def Status.name : Status → List Char
  | running => "Running".toList
  | halted => "Halted".toList
  | error => "Error".toList

inductive Fault where
  | notRunning (status : Status)
  | memory (e : MemoryError)
  | register (e : RegisterError)
  | decode (pc : UInt8) (e : DecodeError)
  | divideByZero
  | output
  | cycleLimit (limit : UInt64)
  deriving DecidableEq

def Fault.message : Fault → List Char
  | notRunning s => "CPU not running: ".toList ++ s.name
  | memory e => "memory error: ".toList ++ e.message
  | register e => "register error: ".toList ++ e.message
  | decode pc e => e.message ++ " (at address ".toList ++ decimal pc.toNat ++ [')']
  | divideByZero => "divide by zero".toList
  | output => "output error: failed to write whole buffer".toList
  | cycleLimit n => "cycle limit of ".toList ++ decimal n.toNat ++
      " reached without halting".toList

structure Cpu where
  regs : Registers
  mem : Memory
  status : Status
  /-- How many instructions have been executed. The count has 64 bits. -/
  cycles : UInt64
  last : Option Instruction
  deriving DecidableEq

namespace Cpu

def new : Cpu := ⟨.zero, .zero, .running, 0, none⟩

/-- Back to the beginning, with as many cells as before. -/
def reset (c : Cpu) : Cpu := ⟨.zero, c.mem.clear, .running, 0, none⟩

def load (c : Cpu) (program : List UInt8) : Option (Except MemoryError Cpu) :=
  (c.mem.load 0 program).map fun loaded => loaded.map fun mem => { c with mem := mem }

theorem load_ok {c : Cpu} {program : List UInt8} {mem : Memory}
    (h : c.mem.load 0 program = some (.ok mem)) :
    c.load program = some (.ok { c with mem := mem }) := by
  rw [load, h]
  rfl

theorem size_new : new.mem.cells.size = Memory.space := Array.size_replicate

theorem isSome_load_new (program : List UInt8) : (new.load program).isSome = true := by
  rw [load, Option.isSome_map]
  exact Memory.isSome_load (Nat.le_of_eq size_new.symm)

/-- A new processor with a program in it. Its memory has all cells, so there always is a result. -/
def ofProgram (program : List UInt8) : Except MemoryError Cpu :=
  (new.load program).get (isSome_load_new program)

theorem load_new (program : List UInt8) : new.load program = some (ofProgram program) :=
  (Option.some_get (isSome_load_new program)).symm

theorem ofProgram_eq {program : List UInt8} (fits : program.length ≤ Memory.space) :
    ofProgram program = .ok { new with
      mem := ⟨(program ++ List.replicate (Memory.space - program.length) 0).toArray⟩ } := by
  have within : 0 + program.length ≤ Memory.space := by rwa [Nat.zero_add]
  have loaded := load_ok (Memory.load_of_fits within (by rwa [size_new]))
  rw [load_new, Option.some_inj] at loaded
  rw [loaded]
  simp [Memory.bytes, new, Memory.zero]

theorem ofProgram_of_fits {program : List UInt8} (fits : program.length ≤ Memory.space) :
    ∃ mem, ofProgram program = .ok { new with mem := mem } :=
  ⟨_, ofProgram_eq fits⟩

def isRunning (c : Cpu) : Bool := c.status == .running

theorem isRunning_iff (c : Cpu) : c.isRunning = true ↔ c.status = .running := beq_iff_eq

def isHalted (c : Cpu) : Bool := c.status == .halted

def readAt (c : Cpu) (a : Nat) : Except Fault UInt8 := (c.mem.read a).mapError .memory

def readOperands (c : Cpu) (count : Nat) : Except Fault (List UInt8) :=
  (List.range' (c.regs.pc.toNat + 1) count).mapM c.readAt

/-- The instruction at the counter. An unknown opcode is found before any operand is read. -/
def fetch (c : Cpu) : Except Fault Instruction := do
  let b ← c.readAt c.regs.pc.toNat
  match Opcode.ofByte? b with
  | none => .error (.decode c.regs.pc (.unknownOpcode b))
  | some op =>
    let rest ← c.readOperands op.operandCount
    (Instruction.decode b rest).mapError (.decode c.regs.pc)

def summary (c : Cpu) : List Char :=
  let truth (b : Bool) : List Char := if b then "true".toList else "false".toList
  let f := c.regs.flags
  "Cpu \x7b state: ".toList ++ c.status.name ++ ", cycles: ".toList ++ decimal c.cycles.toNat ++
    ", regs: Registers \x7b gp: [".toList ++
    Text.join ", ".toList (c.regs.general.toList.map fun b => decimal b.toNat) ++
    "], pc: ".toList ++ decimal c.regs.pc.toNat ++ ", flags: Flags \x7b equal: ".toList ++
    truth f.equal ++ ", greater: ".toList ++ truth f.greater ++ ", less: ".toList ++
    truth f.less ++ " \x7d \x7d \x7d".toList

end Cpu
end Ls8
