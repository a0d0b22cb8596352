import Ls8.Assembly
import Ls8.CommandLine.Options
import Ls8.Disassembly
import Ls8.Machine.Run
import Ls8.Program
import Ls8.Snapshot
import Ls8.Verbosity

/-! What the command line does. The answer to the arguments and the content of the program file
is a value: what is printed, the exit status, and a file to write, whose fate goes into the log. -/
namespace Ls8.CommandLine

open Text (decimal)

def usageText : List Char :=
  ("Usage: ls8-emu [OPTIONS] <PROGRAM>\n\n" ++
   "For more information, try '--help'.\n").toList

def helpText : List Char :=
  ("An emulator of the LS-8 8-bit computer\n\n" ++
   "Usage: ls8-emu [OPTIONS] <PROGRAM>\n\n" ++
   "Arguments:\n" ++
   "  <PROGRAM>  Path to the .ls8 program (assembly source with --assemble)\n\n" ++
   "Options:\n" ++
   "  -n, --max-cycles <N>     Abort with an error after this many instructions\n" ++
   "  -t, --trace              Print every executed instruction with registers and flags " ++
   "to stderr\n" ++
   "      --disasm             Print a disassembly of the program instead of running it\n" ++
   "      --assemble           Assemble mnemonic source and print it in .ls8 form\n" ++
   "      --debug              Open the program in the interactive debugger\n" ++
   "      --dump-state <FILE>  Write the final machine state as JSON to FILE\n" ++
   "  -v, --verbose...         More log output (repeat for more)\n" ++
   "  -q, --quiet              Silence log output\n" ++
   "  -h, --help               Print help\n" ++
   "  -V, --version            Print version\n").toList

def versionText : List Char := "ls8-emu 0.1.0\n".toList

inductive Exit where
  | success | usage | unloadable | failed
  deriving DecidableEq

def Exit.code : Exit → Nat
  | success => 0
  | usage => 1
  | unloadable => 2
  | failed => 3

/-- What an invocation leads to. Standard error has two parts, and between them stands the
message about the file that is written. -/
structure Answer where
  exit : Exit
  stdout : String
  before : String
  after : String
  /-- A path and what to write there. -/
  dump : Option (List Char × List Char)
  verbosity : Verbosity

def Answer.say (exit : Exit) (stdout stderr : List Char) (v : Verbosity) : Answer :=
  ⟨exit, String.ofList stdout, String.ofList stderr, "", none, v⟩

def logLine (v : Verbosity) (l : Level) (message : List Char) : List Char :=
  if v.accepts l then '[' :: l.name ++ "] ".toList ++ message ++ ['\n'] else []

def failure (message : List Char) : List Char :=
  "ERROR: PROCESS RETURNED NON-ZERO EXIT CODE\n".toList ++ message ++ ['\n']

def traceLine (pc : UInt8) (i : Instruction) (r : Registers) : List Char :=
  let shown := r.general.toList.map fun b => Text.padLeft ' ' 3 (decimal b.toNat)
  Text.address pc.toNat ++ ": ".toList ++ Text.padRight ' ' 10 i.text ++ " R=[".toList ++
    Text.join [' '] shown ++ "] PC=".toList ++ Text.address r.pc.toNat ++ " FL=".toList ++
    r.flags.text ++ ['\n']

def note (o : Options) (v : Verbosity) (m : Machine) : String :=
  let pc := m.cpu.regs.pc
  let logged :=
    if v.accepts .trace then
      match m.cpu.fetch with
      | .ok i => logLine v .trace (Text.address pc.toNat ++ ": ".toList ++ i.text)
      | .error _ => []
    else []
  let traced :=
    if o.trace then
      match m.step with
      | (.ok i, m') => traceLine pc i m'.cpu.regs
      | (.error _, _) => []
    else []
  String.ofList (logged ++ traced)

def reached (most : Option UInt64) (c : Cpu) : Option UInt64 := most.filter (· ≤ c.cycles)

/-- Steps until the processor stops, a step fails, or the count has come to the limit, and adds what
`note` says of each machine that makes a step to the log; for so many turns. -/
def executeFor (note : Machine → String) (most : Option UInt64) :
    Nat → Machine → String → Option (Except Fault Unit × Machine × String)
  | 0, _, _ => none
  | turns + 1, m, log =>
    if m.cpu.isRunning then
      match reached most m.cpu with
      | some n => some (.error (.cycleLimit n), m, log)
      | none =>
        match m.step with
        | (.ok _, m') => executeFor note most turns m' (log ++ note m)
        | (.error f, m') => some (.error f, m', log ++ note m)
    else some (.ok (), m, log)

/-- How many register files there are: eight bytes, the counter and three bits. No instruction
changes memory, so that a machine that has made more steps was somewhere twice, and never ends. -/
def registerFiles : Nat := UInt64.size * 256 * 8

def execute (note : Machine → String) (most : Option UInt64) (m : Machine) (log : String) :
    Option (Except Fault Unit × Machine × String) :=
  executeFor note most (registerFiles + 1) m log

def runAnswer (o : Options) (v : Verbosity) (loaded : List Char) (m : Machine) : Option Answer :=
  (execute (note o v) o.maxCycles m (String.ofList loaded)).map fun (ended, m, log) =>
    let answer (exit : Exit) (message : List Char) : Answer :=
      ⟨exit, m.out.printed, log, String.ofList message,
        o.dumpState.map fun path => (path, m.cpu.snapshotIndented), v⟩
    match ended with
    | .ok () => answer .success
        (logLine v .info ("SUCCESS after ".toList ++ decimal m.cpu.cycles.toNat ++
          " cycles".toList))
    | .error f => answer .failed (failure (f.message ++ " (after ".toList ++
        decimal m.cpu.cycles.toNat ++ " cycles)".toList))

def assembleAnswer (o : Options) (v : Verbosity) (content : Except FileError (List UInt8)) :
    Answer :=
  let unreadable (e : FileError) : Answer :=
    .say .unloadable [] (failure ("cannot read ".toList ++ o.program ++ ": ".toList ++
      e.message)) v
  match content with
  | .error e => unreadable e
  | .ok bytes =>
    match Files.text? bytes with
    | none => unreadable .notText
    | some source =>
      match assemble source with
      | .error e => .say .unloadable [] (failure e.message) v
      | .ok program =>
        .say .success (Program.ofBytes program).text
          (logLine v .info ("assembled ".toList ++ decimal program.length ++ " bytes".toList)) v

/-- What the interactive debugger comes to once it is left. A build may be without one. -/
inductive Debugging where
  | absent
  | closed
  | broken (report : List Char)

def debugAnswer (v : Verbosity) (loaded : List Char) : Debugging → Answer
  | .absent =>
    .say .usage [] (loaded ++ failure "--debug needs a build with the `tui` feature".toList) v
  | .closed => .say .success [] loaded v
  | .broken report => .say .failed [] (loaded ++ failure report) v

def programAnswer (o : Options) (v : Verbosity) (content : Except FileError (List UInt8))
    (debug : List UInt8 → Option Debugging) : Option Answer :=
  match Program.ofContent o.program content with
  | .error e => some (.say .unloadable [] (failure e.message) v)
  | .ok p =>
    let loaded := logLine v .debug ("loaded ".toList ++ decimal p.size ++ " bytes from ".toList ++
      o.program)
    if o.disasm then some (.say .success (Disassembly.listing p.bytes) loaded v)
    else if o.debug then (debug p.bytes).map (debugAnswer v loaded)
    else match Cpu.ofProgram p.bytes with
      | .error e => some (.say .unloadable [] (loaded ++ failure e.message) v)
      | .ok cpu => runAnswer o v loaded ⟨cpu, .endless⟩

def Options.verbosity (o : Options) : Verbosity := .ofFlags o.verbose o.quiet

def answer (o : Options) (content : Except FileError (List UInt8))
    (debug : List UInt8 → Option Debugging) : Option Answer :=
  if o.assemble then some (assembleAnswer o o.verbosity content)
  else programAnswer o o.verbosity content debug

def stopAnswer : Stop → Answer
  | .help => .say .success helpText [] ⟨none⟩
  | .version => .say .success versionText [] ⟨none⟩
  | .usage => .say .usage [] (failure usageText) ⟨none⟩

def dumpMessage (v : Verbosity) (path : List Char) : Except FileError Unit → List Char
  | .ok () => logLine v .debug ("wrote machine state to ".toList ++ path)
  | .error e => logLine v .warn ("could not write state to ".toList ++ path ++ ": ".toList ++
      e.message)

/-- Where an invocation takes place. Any reading and any writing may fail, whatever the reason, and
the debugger may never be left. -/
structure World (σ : Type) where
  read : σ → List Char → Except FileError (List UInt8)
  write : σ → List Char → List UInt8 → Except FileError Unit × σ
  debug : σ → List UInt8 → Option Debugging

def World.ofFiles : World Files where
  read := Files.read
  write d path bytes :=
    match d.write path bytes with
    | .ok d' => (.ok (), d')
    | .error e => (.error e, d)
  debug _ _ := some .absent

structure Outcome (σ : Type) where
  exit : Exit
  stdout : String
  stderr : String
  left : σ

def Answer.settle (a : Answer) (w : World σ) (s : σ) : Outcome σ :=
  match a.dump with
  | none => ⟨a.exit, a.stdout, a.before ++ a.after, s⟩
  | some (path, content) =>
    let (written, s') := w.write s path (Files.bytesOf content)
    let told := String.ofList (dumpMessage a.verbosity path written)
    ⟨a.exit, a.stdout, a.before ++ told ++ a.after, s'⟩

/-- A whole invocation; `none` if it never ends. -/
def run (w : World σ) (s : σ) (args : List (List Char)) : Option (Outcome σ) :=
  match parse args with
  | .error stop => some ((stopAnswer stop).settle w s)
  | .ok o => (answer o (w.read s o.program) (w.debug s)).map fun a => a.settle w s

end Ls8.CommandLine
