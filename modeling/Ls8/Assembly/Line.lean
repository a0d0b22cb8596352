import Ls8.Assembly.Operand
import Ls8.Text.Blank
import Ls8.Text.Pieces

/-! One line of assembler source by itself. A line may define a label, may have a statement, and
ends where a comment begins. A statement is read byte by byte, because what comes before a bad
operand counts when the program is too large. -/
namespace Ls8.Assembly

structure Line where
  /-- The label that the line defines, upper-cased. -/
  label : Option (List Char)
  /-- The mnemonic, upper-cased, and the operands. -/
  statement : Option (List Char × List (List Char))
  deriving DecidableEq

def code (s : List Char) : List Char := Text.trim (Text.before (fun c => c == ';' || c == '#') s)

def split (s : List Char) : List Char × List (List Char) :=
  match Text.cut Text.isBlank s with
  | none => (Text.upper s, [])
  | some (name, rest) =>
    let rest := Text.trim rest
    (Text.upper name, if rest.isEmpty then [] else (Text.pieces (· == ',') rest).map Text.trim)

/-- The opcode of an upper-cased mnemonic. `HALT` is a second name of `HLT`. -/
def opcode? (name : List Char) : Option Opcode :=
  if name = "HALT".toList then some .hlt else Opcode.ofMnemonic? name

def operand (op : Opcode) (i : Nat) (given : List Char) : Except Cause Cell :=
  if op = .ldi ∧ i = 1 then value given else register given

/-- The bytes of a statement in order; nothing after the first bad one matters. -/
abbrev Readings : Type := List (Except Cause Cell)

def readings (name : List Char) (given : List (List Char)) : Readings :=
  if name = "DB".toList then
    match given with
    | [v] => [value v]
    | _ => [.error .dataCount]
  else match opcode? name with
    | none => [.error (.unknownMnemonic name)]
    | some op =>
      if given.length = op.operandCount then .ok (.byte op.byte) :: given.mapIdx (operand op)
      else [.error (.operandCount op given.length)]

def Line.readings (line : Line) : Readings :=
  match line.statement with
  | none => []
  | some (name, given) => Assembly.readings name given

def statement? (s : List Char) : Option (List Char × List (List Char)) :=
  if s.isEmpty then none else some (split s)

def Line.read (s : List Char) : Line :=
  match Text.cut (· == ':') (code s) with
  | none => ⟨none, statement? (code s)⟩
  | some (label, rest) => ⟨some (Text.upper (Text.trim label)), statement? (Text.trim rest)⟩

end Ls8.Assembly
