import Ls8.Assembly.Line
import Ls8.Memory

/-! The assembler. A first pass puts the bytes of the program out, a zero wherever the address of
a label belongs, and notes where that is; a second pass puts the addresses in. -/
namespace Ls8.Assembly

/-- A byte of the output that waits for the address of a label. -/
structure Patch where
  place : Nat
  label : List Char
  /-- The line that uses the label. -/
  line : Nat
  deriving DecidableEq

structure Draft where
  /-- Each label with its address, the latest first. -/
  labels : List (List Char × UInt8)
  output : List UInt8
  /-- In the order of the source. -/
  pending : List Patch
  deriving DecidableEq

namespace Draft

def empty : Draft := ⟨[], [], []⟩

def address? (d : Draft) (label : List Char) : Option UInt8 := d.labels.lookup label

def define (d : Draft) (label : List Char) : Except Cause Draft :=
  if label.isEmpty then .error .emptyLabel
  else if Memory.space ≤ d.output.length then .error .tooLarge
  else if (d.address? label).isSome then .error (.duplicateLabel label)
  else .ok { d with labels := (label, d.output.length.toUInt8) :: d.labels }

def emit (d : Draft) (b : UInt8) : Except Cause Draft :=
  if d.output.length < Memory.space then .ok { d with output := d.output ++ [b] }
  else .error .tooLarge

/-- The byte that stands for a cell for now. The use of a label is noted before its byte is
there, so the note names the place of the next byte. -/
def note (d : Draft) (n : Nat) : Cell → Draft × UInt8
  | .byte b => (d, b)
  | .label name => ({ d with pending := d.pending ++ [⟨d.output.length, name, n⟩] }, 0)

def addBytes (n : Nat) (d : Draft) : Readings → Except Cause Draft
  | [] => .ok d
  | .error cause :: _ => .error cause
  | .ok c :: rest =>
    let (noted, b) := d.note n c
    match noted.emit b with
    | .ok d => addBytes n d rest
    | .error cause => .error cause

def addLine (d : Draft) (n : Nat) (line : Line) : Except Cause Draft :=
  match line.label with
  | none => addBytes n d line.readings
  | some label =>
    match d.define label with
    | .ok d => addBytes n d line.readings
    | .error cause => .error cause

def addLines (d : Draft) (n : Nat) : List Line → Except Error Draft
  | [] => .ok d
  | line :: rest =>
    match d.addLine n line with
    | .ok d => d.addLines (n + 1) rest
    | .error cause => .error ⟨n, cause⟩

def patch (d : Draft) (output : List UInt8) : List Patch → Except Error (List UInt8)
  | [] => .ok output
  | p :: rest =>
    match d.address? p.label with
    | some a => d.patch (output.set p.place a) rest
    | none => .error ⟨p.line, .undefinedLabel p.label⟩

def resolve (d : Draft) : Except Error (List UInt8) := d.patch d.output d.pending

end Draft

def sourceLines (source : List Char) : List Line := (Text.lines source).map Line.read

def draft (source : List Char) : Except Error Draft := Draft.empty.addLines 1 (sourceLines source)

end Ls8.Assembly

namespace Ls8

def assemble (source : List Char) : Except Assembly.Error (List UInt8) :=
  (Assembly.draft source).bind Assembly.Draft.resolve

end Ls8
