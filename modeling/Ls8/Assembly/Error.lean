import Ls8.Opcode
import Ls8.Text.Numeral

/-! What can be wrong in assembler source. Every error belongs to a line. -/
namespace Ls8.Assembly

open Text (decimal)

inductive Cause where
  | emptyLabel
  | dataCount
  | operandCount (op : Opcode) (found : Nat)
  | badNumber (operand : List Char)
  | badOperand (operand : List Char)
  | unknownMnemonic (name : List Char)
  | badRegister (operand : List Char)
  | undefinedLabel (label : List Char)
  | duplicateLabel (label : List Char)
  | valueOutOfRange (value : Int)
  | tooLarge
  deriving DecidableEq

/-- Causes that are told apart by more than their wording. -/
inductive Kind where
  | syntaxError | unknownMnemonic | invalidRegister | undefinedLabel | duplicateLabel
  | valueOutOfRange | programTooLarge
  deriving DecidableEq

def Cause.kind : Cause → Kind
  | emptyLabel | dataCount | operandCount .. | badNumber _ | badOperand _ => .syntaxError
  | unknownMnemonic _ => .unknownMnemonic
  | badRegister _ => .invalidRegister
  | undefinedLabel _ => .undefinedLabel
  | duplicateLabel _ => .duplicateLabel
  | valueOutOfRange _ => .valueOutOfRange
  | tooLarge => .programTooLarge

structure Error where
  /-- Lines count from one. -/
  line : Nat
  cause : Cause
  deriving DecidableEq

def Error.message (e : Error) : List Char :=
  let headed (what : String) (detail : List Char) : List Char :=
    what.toList ++ " on line ".toList ++ decimal e.line ++ ": ".toList ++ detail
  let wrong := headed "syntax error"
  match e.cause with
  | .emptyLabel => wrong "empty label".toList
  | .dataCount => wrong "DB takes one value".toList
  | .operandCount op found =>
    wrong (op.mnemonic ++ " takes ".toList ++ decimal op.operandCount ++
      " operands, found ".toList ++ decimal found)
  | .badNumber s => wrong ("invalid number: ".toList ++ s)
  | .badOperand s => wrong ("invalid operand: ".toList ++ s)
  | .unknownMnemonic s => headed "unknown mnemonic" s
  | .badRegister s => headed "invalid register" (s ++ " (expected R0-R7)".toList)
  | .undefinedLabel s => headed "undefined label" s
  | .duplicateLabel s => headed "label defined twice" s
  | .valueOutOfRange v => headed "value out of range" (Text.decimalInt v)
  | .tooLarge => "program exceeds 256 bytes at line ".toList ++ decimal e.line

end Ls8.Assembly
