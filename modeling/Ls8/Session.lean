import Ls8.Assembly
import Ls8.Disassembly
import Ls8.Machine.Run
import Ls8.Program
import Ls8.Snapshot

/-! A machine for programs that embed it: it loads source text, runs, and answers queries. -/
namespace Ls8

inductive SessionError where
  | program (e : LoadError)
  | assembly (e : Assembly.Error)
  | memory (e : MemoryError)
  | fault (f : Fault)
  deriving DecidableEq

structure Session where
  machine : Machine
  program : List UInt8
  deriving DecidableEq

namespace Session

def new : Session := ⟨⟨.new, .endless⟩, []⟩

/-- Begins with a new machine, a program in it and nothing printed; answers the size of the program.
A program that does not fit changes nothing. -/
def load (s : Session) (bytes : List UInt8) : Except SessionError Nat × Session :=
  match Cpu.ofProgram bytes with
  | .ok cpu => (.ok bytes.length, ⟨⟨cpu, .endless⟩, bytes⟩)
  | .error e => (.error (.memory e), s)

def loadText (s : Session) (source : List Char) : Except SessionError Nat × Session :=
  match Program.parse source with
  | .ok p => s.load p.bytes
  | .error e => (.error (.program e), s)

def loadAssembly (s : Session) (source : List Char) : Except SessionError Nat × Session :=
  match assemble source with
  | .ok bytes => s.load bytes
  | .error e => (.error (.assembly e), s)

def step (s : Session) : Except SessionError (List Char) × Session :=
  match s.machine.step with
  | (.ok i, m) => (.ok i.text, { s with machine := m })
  | (.error f, m) => (.error (.fault f), { s with machine := m })

/-- Runs for at most `limit` instructions. The answer counts all cycles since the start. -/
def run (s : Session) (limit : UInt32) : Except SessionError UInt64 × Session :=
  match s.machine.runLimited limit.toUInt64 with
  | (.ok _, m) => (.ok m.cpu.cycles, { s with machine := m })
  | (.error f, m) => (.error (.fault f), { s with machine := m })

/-- Begins the program anew. A program that does not fit leaves memory empty. -/
def reset (s : Session) : Session :=
  match Cpu.ofProgram s.program with
  | .ok cpu => { s with machine := ⟨cpu, .endless⟩ }
  | .error _ => { s with machine := ⟨.new, .endless⟩ }

def register (s : Session) (i : UInt8) : UInt8 :=
  match s.machine.cpu.regs.get i with
  | .ok b => b
  | .error _ => 0

def memoryAt (s : Session) (a : Nat) : UInt8 :=
  match s.machine.cpu.mem.read a with
  | .ok b => b
  | .error _ => 0

def memoryAll (s : Session) : List UInt8 := s.machine.cpu.mem.bytes

def registersJson (s : Session) : List Char := s.machine.cpu.regs.toJson.compact

def assembledSize (source : List Char) : Except SessionError Nat :=
  ((assemble source).map List.length).mapError .assembly

def disassembleFirst (image : List UInt8) : List Char := (Disassembly.textAt image 0).1

end Session
end Ls8
