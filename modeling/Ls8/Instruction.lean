import Ls8.Opcode
import Ls8.Text.Numeral
import Ls8.Text.Pieces

/-! Instructions, their bytes and their text. Operands are kept as the bytes they are: whether
a register number is below eight is asked when the instruction runs. -/
namespace Ls8

open Text (decimal)

inductive Condition where
  | always | equal | different
  deriving DecidableEq

inductive BinaryOp where
  | and | or | xor | shl | shr | mod
  deriving DecidableEq

inductive Instruction where
  | halt
  | jump (condition : Condition) (reg : UInt8)
  | load (reg value : UInt8)
  | print (reg : UInt8)
  | compare (a b : UInt8)
  | complement (reg : UInt8)
  | binary (op : BinaryOp) (a b : UInt8)
  deriving DecidableEq

inductive DecodeError where
  | unknownOpcode (byte : UInt8)
  | missingOperands (byte : UInt8) (needed found : Nat)
  deriving DecidableEq

def DecodeError.message : DecodeError → List Char
  | unknownOpcode b => "operation unknown: opcode 0b".toList ++ Text.bits b ++
      " not found".toList
  | missingOperands b needed found => "opcode 0b".toList ++ Text.bits b ++ " needs ".toList ++
      decimal needed ++ " operand bytes, found ".toList ++ decimal found

def Condition.opcode : Condition → Opcode
  | always => .jmp
  | equal => .jeq
  | different => .jne

def BinaryOp.opcode : BinaryOp → Opcode
  | and => .and
  | or => .or
  | xor => .xor
  | shl => .shl
  | shr => .shr
  | mod => .mod

namespace Instruction

def opcode : Instruction → Opcode
  | halt => .hlt
  | jump c _ => c.opcode
  | load _ _ => .ldi
  | print _ => .prn
  | compare _ _ => .cmp
  | complement _ => .not
  | binary op _ _ => op.opcode

def operands : Instruction → List UInt8
  | halt => []
  | jump _ r | print r | complement r => [r]
  | load a b | compare a b | binary _ a b => [a, b]

def width (i : Instruction) : Nat := 1 + i.opcode.operandCount

def encode (i : Instruction) : List UInt8 := i.opcode.byte :: i.operands

/-- The instruction of an opcode with two operand bytes, of which it uses those it needs. -/
def ofOpcode (x y : UInt8) : Opcode → Instruction
  | .hlt => halt
  | .jmp => jump .always x
  | .jeq => jump .equal x
  | .jne => jump .different x
  | .ldi => load x y
  | .prn => print x
  | .cmp => compare x y
  | .not => complement x
  | .and => binary .and x y
  | .or => binary .or x y
  | .xor => binary .xor x y
  | .shl => binary .shl x y
  | .shr => binary .shr x y
  | .mod => binary .mod x y

theorem opcode_ofOpcode (x y : UInt8) (op : Opcode) : (ofOpcode x y op).opcode = op := by
  cases op <;> rfl

theorem operandCount_eq (op : Opcode) : op.operandCount = (ofOpcode 0 0 op).operands.length := by
  cases op <;> decide

theorem length_operands (i : Instruction) : i.operands.length = i.opcode.operandCount := by
  rw [operandCount_eq]
  cases i with
  | jump c r => cases c <;> rfl
  | binary op a b => cases op <;> rfl
  | _ => rfl

theorem length_encode (i : Instruction) : i.encode.length = i.width := by
  simp only [encode, width, List.length_cons, length_operands]
  omega

/-- Reads an opcode byte and the bytes after it. An unknown opcode is reported whatever follows,
and bytes beyond the operands are not looked at. -/
def decode (b : UInt8) (rest : List UInt8) : Except DecodeError Instruction :=
  match Opcode.ofByte? b with
  | none => .error (.unknownOpcode b)
  | some op =>
    if rest.length < op.operandCount then
      .error (.missingOperands b op.operandCount rest.length)
    else .ok (ofOpcode (rest.getD 0 0) (rest.getD 1 0) op)

theorem decode_byte {op : Opcode} {rest : List UInt8} (enough : op.operandCount ≤ rest.length) :
    decode op.byte rest = .ok (ofOpcode (rest.getD 0 0) (rest.getD 1 0) op) := by
  simp only [decode, Opcode.ofByte?_byte, if_neg (Nat.not_lt_of_le enough)]

theorem decode_encode (i : Instruction) (rest : List UInt8) :
    decode i.opcode.byte (i.operands ++ rest) = .ok i := by
  have enough : i.opcode.operandCount ≤ (i.operands ++ rest).length := by
    rw [List.length_append, length_operands]
    omega
  rw [decode_byte enough]
  cases i with
  | jump c r => cases c <;> rfl
  | binary op a b => cases op <;> rfl
  | _ => rfl

def registerName (r : UInt8) : List Char := 'R' :: decimal r.toNat

def text (i : Instruction) : List Char :=
  match i with
  | halt => i.opcode.mnemonic
  | load r v => i.opcode.mnemonic ++ ' ' :: registerName r ++ ',' :: decimal v.toNat
  | _ => i.opcode.mnemonic ++ ' ' :: Text.join [','] (i.operands.map registerName)

end Instruction
end Ls8
