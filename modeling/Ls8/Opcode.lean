import Ls8.Text.Upper

/-! The fourteen opcodes. A byte reads `AABCDDDD`: AA operand bytes follow, B marks the
arithmetic unit, C marks an instruction that sets the counter, DDDD tells them apart. -/
namespace Ls8

inductive Opcode where
  | hlt | ldi | prn | jmp | jeq | jne | cmp | and | or | not | shl | shr | mod | xor
  deriving DecidableEq

namespace Opcode

def all : List Opcode := [hlt, ldi, prn, jmp, jeq, jne, cmp, and, or, not, shl, shr, mod, xor]

def byte : Opcode → UInt8
  | hlt => 0b00000001
  | ldi => 0b10000010
  | prn => 0b01000111
  | jmp => 0b01010100
  | jeq => 0b01010101
  | jne => 0b01010110
  | cmp => 0b10100111
  | and => 0b10100001
  | or => 0b10100101
  | not => 0b01101110
  | shl => 0b10101011
  | shr => 0b10101100
  | mod => 0b10100110
  | xor => 0b10101001

def ofByte? (b : UInt8) : Option Opcode := all.find? fun op => op.byte == b

theorem ofByte?_byte (op : Opcode) : ofByte? op.byte = some op := by
  cases op <;> rfl

theorem byte_of_ofByte? {b : UInt8} {op : Opcode} (h : ofByte? b = some op) : op.byte = b := by
  have hit := List.find?_some h
  exact eq_of_beq hit

def announced (b : UInt8) : Nat := (b >>> 6).toNat

def operandCount (op : Opcode) : Nat := announced op.byte

def setsCounter (op : Opcode) : Bool := op.byte &&& 0b00010000 != 0

def isArithmetic (op : Opcode) : Bool := op.byte &&& 0b00100000 != 0

def mnemonic : Opcode → List Char
  | hlt => "HLT".toList
  | ldi => "LDI".toList
  | prn => "PRN".toList
  | jmp => "JMP".toList
  | jeq => "JEQ".toList
  | jne => "JNE".toList
  | cmp => "CMP".toList
  | and => "AND".toList
  | or => "OR".toList
  | not => "NOT".toList
  | shl => "SHL".toList
  | shr => "SHR".toList
  | mod => "MOD".toList
  | xor => "XOR".toList

/-- The opcode of a mnemonic in any mixture of cases. `BOR` is a second name of `OR`. -/
def ofMnemonic? (name : List Char) : Option Opcode :=
  if Text.sameLetters name "BOR".toList then some or
  else all.find? fun op => Text.sameLetters op.mnemonic name

/-- The name used in saved machines: the mnemonic with its first letter alone a capital. -/
def tag (op : Opcode) : List Char :=
  match op.mnemonic with
  | [] => []
  | c :: s => c :: s.map Char.toLower

def ofTag? (name : List Char) : Option Opcode := all.find? fun op => op.tag == name

theorem ofTag?_tag (op : Opcode) : ofTag? op.tag = some op := by
  cases op <;> decide

end Opcode
end Ls8
