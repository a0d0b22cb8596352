import Ls8.Instruction

/-! Reading an image back as assembler source. What is no instruction, or is cut off by the end
of the image, is shown as one byte of data. -/
namespace Ls8

inductive Item where
  | instruction (i : Instruction)
  | data (b : UInt8)
  deriving DecidableEq

namespace Item

def ofBytes (b : UInt8) (rest : List UInt8) : Item :=
  match Instruction.decode b rest with
  | .ok i => .instruction i
  | .error _ => .data b

def width : Item → Nat
  | instruction i => i.width
  | data _ => 1

theorem width_pos (it : Item) : 0 < it.width := by
  cases it with
  | instruction i => exact Nat.lt_of_lt_of_le Nat.one_pos (Nat.le_add_right 1 _)
  | data b => exact Nat.one_pos

def text : Item → List Char
  | instruction i => i.text
  | data b => "DB 0b".toList ++ Text.bits b

end Item

namespace Disassembly

def item? (image : List UInt8) (a : Nat) : Option Item :=
  match image.drop a with
  | [] => none
  | b :: rest => some (.ofBytes b rest)

/-- The text of the item at an address and its width; no text and no width past the end. -/
def textAt (image : List UInt8) (a : Nat) : List Char × Nat :=
  match item? image a with
  | none => ([], 0)
  | some it => (it.text, it.width)

structure Row where
  address : Nat
  item : Item
  raw : List UInt8
  deriving DecidableEq

/-- The rows of an image that begins at `a`: each item begins where the one before it ends. -/
def rows (a : Nat) : List UInt8 → List Row
  | [] => []
  | b :: rest =>
    let it := Item.ofBytes b rest
    ⟨a, it, b :: rest.take (it.width - 1)⟩ :: rows (a + it.width) (rest.drop (it.width - 1))
  termination_by image => image.length

/-- Every byte of the image stands in exactly one row. -/
theorem flatMap_raw_rows (a : Nat) (image : List UInt8) :
    (rows a image).flatMap Row.raw = image := by
  fun_induction rows a image with
  | case1 => rfl
  | case2 a b rest it ih =>
    simp only [List.flatMap_cons, ih, List.cons_append, List.take_append_drop]

def Row.line (r : Row) : List Char :=
  Text.address r.address ++ ": ".toList ++ Text.padRight ' ' 12 r.item.text ++ " ; ".toList ++
    Text.join [' '] (r.raw.map Text.bits) ++ ['\n']

def heading : List Char := "; LS-8 Disassembly\n; -----------------\n\n".toList

def listing (image : List UInt8) : List Char := heading ++ (rows 0 image).flatMap Row.line

end Disassembly
end Ls8
