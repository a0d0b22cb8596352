import Ls8.Assembly.Error

/-! Operands. A value is a number or the name of a label; which address the label has is not
known before all lines have been read. -/
namespace Ls8.Assembly

inductive Cell where
  | byte (b : UInt8)
  /-- The address of a label, by its upper-cased name. -/
  | label (name : List Char)
  deriving DecidableEq

/-- What a numeral says: nothing, when the text has no numeral's shape at all. -/
inductive Numeral where
  | value (v : Int)
  | malformed
  | absent

/-- A hexadecimal or binary numeral that does not work out is no numeral; a text that begins
like a decimal one has to be one. -/
def numeral : List Char → Numeral
  | '0' :: 'x' :: s | '0' :: 'X' :: s => (Text.word64? 16 s).elim .absent .value
  | '0' :: 'b' :: s | '0' :: 'B' :: s => (Text.word64? 2 s).elim .absent .value
  | c :: s =>
    if c.isDigit || c == '-' then (Text.word64? 10 (c :: s)).elim .malformed .value else .absent
  | [] => .absent

def isNameStart (c : Char) : Bool := c.isAlpha || c == '_'

def isNameChar (c : Char) : Bool := c.isAlphanum || c == '_'

def isName (s : List Char) : Bool := s.head?.any isNameStart && s.all isNameChar

def value (operand : List Char) : Except Cause Cell :=
  match numeral operand with
  | .value v => if 0 ≤ v ∧ v < 256 then .ok (.byte v.toNat.toUInt8) else .error (.valueOutOfRange v)
  | .malformed => .error (.badNumber operand)
  | .absent =>
    if isName operand then .ok (.label (Text.upper operand)) else .error (.badOperand operand)

def register? : List Char → Option Nat
  | 'R' :: s | 'r' :: s => Text.below? 8 10 s
  | _ => none

def register (operand : List Char) : Except Cause Cell :=
  match register? operand with
  | some n => .ok (.byte n.toUInt8)
  | none => .error (.badRegister operand)

end Ls8.Assembly
