import Ls8.Files
import Ls8.Memory
import Ls8.Text.Blank

/-! The text form of a program: one byte a line in binary, with comments after `#`. A program
that was read remembers the line that each of its bytes came from. -/
namespace Ls8

open Text (decimal)

structure Program where
  /-- In the order of their addresses. -/
  bytes : List UInt8
  lines : List (List Char)
  deriving DecidableEq

inductive BadByte where
  | notBinary (value : List Char)
  | tooWide (value : List Char)
  deriving DecidableEq

def BadByte.message : BadByte → List Char
  | notBinary s => "expected a base-2 literal, found `".toList ++ s ++ "`".toList
  | tooWide s => "`".toList ++ s ++ "` does not fit in 8 bits".toList

inductive LoadError where
  | notFound (path : List Char)
  | file (e : FileError)
  | badByte (line : Nat) (e : BadByte)
  | tooLarge
  deriving DecidableEq

def LoadError.message : LoadError → List Char
  | notFound path => "unknown file: cannot find file with name ".toList ++ path
  | file e => "I/O error: ".toList ++ e.message
  | badByte n e => "parse error on line ".toList ++ decimal n ++ ": ".toList ++ e.message
  | tooLarge => "program does not fit in 256 bytes of memory".toList

namespace Program

def empty : Program := ⟨[], []⟩

def push (p : Program) (b : UInt8) (line : List Char) : Program :=
  ⟨p.bytes ++ [b], p.lines ++ [line]⟩

def size (p : Program) : Nat := p.bytes.length

def ofBytes (bytes : List UInt8) : Program := ⟨bytes, bytes.map Text.bits⟩

def value (line : List Char) : List Char := Text.trim (Text.before (· == '#') line)

/-- Any number of binary digits that make a number below 256. -/
def byte (s : List Char) : Except BadByte UInt8 :=
  if s.all fun c => c == '0' || c == '1' then
    match (Text.natural? 2 s).filter (· < 256) with
    | some n => .ok n.toUInt8
    | none => .error (.tooWide s)
  else .error (.notBinary s)

/-- Adds line number `n`; a line without a value adds nothing. A bad byte is worse than one too
many. -/
def addLine (p : Program) (n : Nat) (line : List Char) : Except LoadError Program :=
  let s := value line
  if s.isEmpty then .ok p
  else match byte s with
    | .error e => .error (.badByte n e)
    | .ok b => if p.size = Memory.space then .error .tooLarge else .ok (p.push b (Text.trim line))

/-- Adds lines from number `n` on; a line that is no text ends the reading. -/
def addLines (p : Program) (n : Nat) : List (Option (List Char)) → Except LoadError Program
  | [] => .ok p
  | none :: _ => .error (.file .notText)
  | some line :: rest =>
    match p.addLine n line with
    | .ok p => p.addLines (n + 1) rest
    | .error e => .error e

theorem size_addLine {p q : Program} {n : Nat} {line : List Char} (room : p.size ≤ Memory.space)
    (h : p.addLine n line = .ok q) : q.size ≤ Memory.space := by
  unfold addLine at h
  dsimp only at h
  split at h
  · cases h
    exact room
  · split at h
    · cases h
    · split at h
      · cases h
      · next more =>
        cases h
        simp only [size, push, List.length_append, List.length_singleton] at room more ⊢
        omega

theorem size_addLines {p q : Program} {n : Nat} {lines : List (Option (List Char))}
    (room : p.size ≤ Memory.space) (h : p.addLines n lines = .ok q) : q.size ≤ Memory.space := by
  induction lines generalizing p n with
  | nil =>
    cases h
    exact room
  | cons line lines ih =>
    cases line with
    | none => cases h
    | some line =>
      simp only [addLines] at h
      split at h
      · next added => exact ih (size_addLine room added) h
      · cases h

def parse (source : List Char) : Except LoadError Program :=
  empty.addLines 1 ((Text.lines source).map some)

/-- Reads a program from the bytes of a file, which is cut into lines before it is decoded. -/
def ofFile (bytes : List UInt8) : Except LoadError Program :=
  empty.addLines 1 ((Text.linesBy 10 13 bytes).map Files.text?)

def byteLine (a : Nat) (b : UInt8) : List Char :=
  Text.bits b ++ " # ".toList ++ Text.address a ++ ['\n']

def text (p : Program) : List Char :=
  "# LS-8 program\n# ".toList ++ decimal p.size ++ " bytes\n\n".toList ++
    (p.bytes.zipIdx.flatMap fun (b, a) => byteLine a b)

def ofContent (path : List Char) : Except FileError (List UInt8) → Except LoadError Program
  | .ok bytes => ofFile bytes
  | .error .notFound => .error (.notFound path)
  | .error e => .error (.file e)

def load (d : Files) (path : List Char) : Except LoadError Program :=
  ofContent path (d.read path)

def save (d : Files) (path : List Char) (p : Program) : Except LoadError Files :=
  (d.write path (Files.bytesOf p.text)).mapError .file

end Program
end Ls8
