import Ls8.Debugger.Window
import Ls8.Machine
import Ls8.Text.Pieces

/-! The debugger: a machine, the program it was given, and breakpoints. -/
namespace Ls8

open Text (decimal)

inductive Notice where
  | ready
  | loadFailed (e : MemoryError)
  | executed (pc : UInt8) (i : Instruction)
  | failed (f : Fault)
  | stopped (s : Status)
  | running
  | finished (cycles : UInt64) (s : Status)
  | atBreakpoint (pc : UInt8)
  | breakpointSet (pc : UInt8)
  | breakpointRemoved (pc : UInt8)
  | wasReset
  deriving DecidableEq

def Notice.text : Notice → List Char
  | ready => "Ready. Press 's' to step, 'r' to run, 'q' to quit.".toList
  | loadFailed e => "Error: ".toList ++ e.message
  | executed pc i => "PC=".toList ++ Text.address pc.toNat ++ ": ".toList ++ i.text
  | failed f => "Error: ".toList ++ f.message
  | stopped s => "CPU stopped: ".toList ++ s.name
  | running => "Running...".toList
  | finished n s => "Stopped after ".toList ++ decimal n.toNat ++ " cycles: ".toList ++ s.name
  | atBreakpoint pc => "Breakpoint at PC=".toList ++ decimal pc.toNat
  | breakpointSet pc => "Set breakpoint at PC=".toList ++ decimal pc.toNat
  | breakpointRemoved pc => "Removed breakpoint at PC=".toList ++ decimal pc.toNat
  | wasReset => "Reset. Ready.".toList

structure Debugger where
  machine : Machine
  program : List UInt8
  /-- Addresses in increasing order. -/
  breakpoints : List UInt8
  running : Bool
  notice : Notice
  scroll : Nat
  deriving DecidableEq

namespace Debugger

/-- A new machine with the program, or with nothing if the program is too large. -/
def load (d : Debugger) : Debugger :=
  match Cpu.ofProgram d.program with
  | .ok cpu => { d with machine := ⟨cpu, .endless⟩ }
  | .error e => { d with machine := ⟨.new, .endless⟩, notice := .loadFailed e }

def start (program : List UInt8) : Debugger :=
  load ⟨⟨.new, .endless⟩, program, [], false, .ready, 0⟩

def pc (d : Debugger) : UInt8 := d.machine.cpu.regs.pc

def onBreakpoint (d : Debugger) : Bool := d.breakpoints.contains d.pc

def step (d : Debugger) : Debugger :=
  if d.machine.cpu.isRunning then
    match d.machine.step with
    | (.ok i, m) => { d with machine := m, notice := .executed d.pc i }
    | (.error f, m) => { d with machine := m, notice := .failed f, running := false }
  else { d with notice := .stopped d.machine.cpu.status, running := false }

/-- Starts to run. A breakpoint at the counter is left behind first. -/
def run (d : Debugger) : Debugger :=
  let d := if d.onBreakpoint then d.step else d
  if d.machine.cpu.isRunning then { d with running := true, notice := .running }
  else { d with running := false }

/-- One turn of a run: at most one instruction, and none at a breakpoint. -/
def tick (d : Debugger) : Debugger :=
  if !d.running then d
  else if !d.machine.cpu.isRunning then
    { d with running := false, notice := .finished d.machine.cpu.cycles d.machine.cpu.status }
  else if d.onBreakpoint then { d with running := false, notice := .atBreakpoint d.pc }
  else d.step

def ticksFrom (made : Nat) : Nat → Debugger → Nat × Debugger
  | 0, d => (made, d)
  | n + 1, d => if d.running then ticksFrom (made + 1) n d.tick else (made, d)

def ticks (most : Nat) (d : Debugger) : Nat × Debugger := ticksFrom 0 most d

def insert (a : UInt8) : List UInt8 → List UInt8
  | [] => [a]
  | b :: rest => if a ≤ b then a :: b :: rest else b :: insert a rest

theorem mem_insert (a b : UInt8) (s : List UInt8) : b ∈ insert a s ↔ b = a ∨ b ∈ s := by
  induction s with
  | nil => simp [insert]
  | cons c s ih =>
    unfold insert
    split
    · exact List.mem_cons
    · simp only [List.mem_cons, ih]
      exact or_left_comm

def toggle (d : Debugger) : Debugger :=
  if d.onBreakpoint then
    { d with breakpoints := d.breakpoints.filter (· != d.pc), notice := .breakpointRemoved d.pc }
  else { d with breakpoints := insert d.pc d.breakpoints, notice := .breakpointSet d.pc }

/-- Begins anew; breakpoints and scrolling stay. -/
def reset (d : Debugger) : Debugger := { d.load with running := false, notice := .wasReset }

def jump (d : Debugger) (target : UInt8) : Debugger :=
  { d with machine := d.machine.setRegs (d.machine.cpu.regs.jump target) }

def scrollTo (d : Debugger) (row : Nat) : Debugger := { d with scroll := row }

def poke (d : Debugger) (a : Nat) (b : UInt8) : Except MemoryError Debugger :=
  (d.machine.cpu.mem.write a b).map fun mem =>
    { d with machine := { d.machine with cpu := { d.machine.cpu with mem := mem } } }

def outputLines (d : Debugger) : List (List Char) := Text.lines d.machine.out.printed.toList

/-- The rows about the counter, and for each whether it is the row of the counter. An address is
shown as the byte it is. -/
def disassembly (d : Debugger) (count : Nat) : List (WindowRow × Bool) :=
  (window d.machine.cpu.mem.bytes d.pc.toNat count).map fun r =>
    ({ r with address := r.address.toUInt8.toNat }, r.address == d.pc.toNat)

end Debugger
end Ls8
