import Ls8.Text.Numeral
import Ls8.Text.Pieces

/-! The arguments of the command line. They are read from left to right; help and version are
answered as soon as they are met, and what does not go together is found at the end. -/
namespace Ls8.CommandLine

structure Options where
  program : List Char
  /-- After how many instructions to give up. -/
  maxCycles : Option UInt64
  trace : Bool
  disasm : Bool
  assemble : Bool
  debug : Bool
  /-- Where to write the final state of the machine. -/
  dumpState : Option (List Char)
  verbose : Nat
  quiet : Bool
  deriving DecidableEq

inductive Stop where
  | help
  | version
  | usage
  deriving DecidableEq

inductive Flag where
  | trace | disasm | assemble | debug | verbose | quiet | help | version
  deriving DecidableEq

inductive Setting where
  | maxCycles | dumpState
  deriving DecidableEq

abbrev Name : Type := Flag ⊕ Setting

def long? (name : List Char) : Option Name :=
  [("max-cycles", .inr .maxCycles), ("trace", .inl .trace), ("disasm", .inl .disasm),
   ("assemble", .inl .assemble), ("debug", .inl .debug), ("dump-state", .inr .dumpState),
   ("verbose", .inl .verbose), ("quiet", .inl .quiet), ("help", .inl .help),
   ("version", .inl .version)].lookup (String.ofList name)

def short? : Char → Option Name
  | 'n' => some (.inr .maxCycles)
  | 't' => some (.inl .trace)
  | 'v' => some (.inl .verbose)
  | 'q' => some (.inl .quiet)
  | 'h' => some (.inl .help)
  | 'V' => some (.inl .version)
  | _ => none

structure Draft where
  given : Options
  named : Bool
  /-- The option whose value is the next argument. -/
  waiting : Option Setting
  /-- Whether all options have been given, as `--` says. -/
  closed : Bool

namespace Draft

def empty : Draft :=
  ⟨⟨[], none, false, false, false, false, none, 0, false⟩, false, none, false⟩

def once (d : Draft) (already : Bool) (o : Options) : Except Stop Draft :=
  if already then .error .usage else .ok { d with given := o }

def setFlag (d : Draft) : Flag → Except Stop Draft
  | .trace => d.once d.given.trace { d.given with trace := true }
  | .disasm => d.once d.given.disasm { d.given with disasm := true }
  | .assemble => d.once d.given.assemble { d.given with assemble := true }
  | .debug => d.once d.given.debug { d.given with debug := true }
  | .quiet => d.once d.given.quiet { d.given with quiet := true }
  | .verbose => .ok { d with given := { d.given with verbose := min 255 (d.given.verbose + 1) } }
  | .help => .error .help
  | .version => .error .version

def setValue (d : Draft) (s : Setting) (v : List Char) : Except Stop Draft :=
  let d := { d with waiting := none }
  match s with
  | .maxCycles =>
    match Text.below? UInt64.size 10 v with
    | some n =>
      d.once d.given.maxCycles.isSome { d.given with maxCycles := some n.toUInt64 }
    | none => .error .usage
  | .dumpState =>
    if v.isEmpty then .error .usage
    else d.once d.given.dumpState.isSome { d.given with dumpState := some v }

def setProgram (d : Draft) (v : List Char) : Except Stop Draft :=
  if v.isEmpty || d.named then .error .usage
  else .ok { d with given := { d.given with program := v }, named := true }

def takeLong (d : Draft) (s : List Char) : Except Stop Draft :=
  let (name, v) := match Text.cut (· == '=') s with
    | some (name, v) => (name, some v)
    | none => (s, none)
  match long? name, v with
  | some (.inl flag), none => d.setFlag flag
  | some (.inr setting), some v => d.setValue setting v
  | some (.inr setting), none => .ok { d with waiting := some setting }
  | _, _ => .error .usage

/-- Short options in one argument. A value may follow at once, with or without an equals sign. -/
def takeShort (d : Draft) : List Char → Except Stop Draft
  | [] => .ok d
  | c :: s =>
    match short? c with
    | none => .error .usage
    | some (.inl flag) => (d.setFlag flag).bind fun d => d.takeShort s
    | some (.inr setting) =>
      match s with
      | [] => .ok { d with waiting := some setting }
      | '=' :: v => d.setValue setting v
      | v => d.setValue setting v

def looksLikeOption : List Char → Bool
  | '-' :: _ :: _ => true
  | _ => false

/-- Takes one argument. The value of an option may not look like an option itself. -/
def take (d : Draft) (arg : List Char) : Except Stop Draft :=
  match d.waiting with
  | some setting => if looksLikeOption arg then .error .usage else d.setValue setting arg
  | none =>
    if d.closed || !looksLikeOption arg then d.setProgram arg
    else match arg.drop 1 with
      | ['-'] => .ok { d with closed := true }
      | '-' :: s => d.takeLong s
      | s => d.takeShort s

def finish (d : Draft) : Except Stop Options :=
  let o := d.given
  let modes := [o.disasm, o.assemble, o.debug].count true
  if d.waiting.isSome || !d.named || 1 < modes || (o.quiet && o.verbose != 0) then .error .usage
  else .ok o

end Draft

def parse (args : List (List Char)) : Except Stop Options :=
  (args.foldlM Draft.take Draft.empty).bind Draft.finish

end Ls8.CommandLine
