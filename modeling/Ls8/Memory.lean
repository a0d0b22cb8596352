import Ls8.Text.Numeral

/-! The memory of the machine: one byte a cell, addressed from zero. A new memory has 256 cells.
A restored one may have any number. Reading and writing ask whether the cell is there; loading and
dumping rely on it, and where it is not, they have no result: the process breaks off. -/
namespace Ls8

open Text (decimal)

inductive MemoryError where
  | noCell (address : Nat)
  | tooLarge (size available : Nat)
  deriving DecidableEq

namespace MemoryError

def message : MemoryError → List Char
  | noCell a => "memory address ".toList ++ decimal a ++ " out of range (0-255)".toList
  | tooLarge size available =>
    "program size ".toList ++ decimal size ++ " exceeds available space ".toList ++
      decimal available

end MemoryError

structure Memory where
  cells : Array UInt8
  deriving DecidableEq

namespace Memory

def space : Nat := 256

def zero : Memory := ⟨Array.replicate space 0⟩

def bytes (m : Memory) : List UInt8 := m.cells.toList

def read (m : Memory) (a : Nat) : Except MemoryError UInt8 :=
  match m.cells[a]? with
  | some b => .ok b
  | none => .error (.noCell a)

def write (m : Memory) (a : Nat) (b : UInt8) : Except MemoryError Memory :=
  if a < m.cells.size then .ok ⟨m.cells.setIfInBounds a b⟩ else .error (.noCell a)

theorem size_write {m m' : Memory} {a : Nat} {b : UInt8} (h : m.write a b = .ok m') :
    m'.cells.size = m.cells.size := by
  unfold write at h
  split at h
  · cases h
    exact Array.size_setIfInBounds
  · cases h

theorem read_write_self {m m' : Memory} {a : Nat} {b : UInt8} (h : m.write a b = .ok m') :
    m'.read a = .ok b := by
  unfold write at h
  split at h
  · next inside =>
    cases h
    simp [read, inside]
  · cases h

theorem read_write_other {m m' : Memory} {a c : Nat} {b : UInt8} (h : m.write a b = .ok m')
    (other : c ≠ a) : m'.read c = m.read c := by
  unfold write at h
  split at h
  · cases h
    simp [read, Array.getElem?_setIfInBounds_ne (Ne.symm other)]
  · cases h

def clear (m : Memory) : Memory := ⟨Array.replicate m.cells.size 0⟩

theorem size_clear (m : Memory) : m.clear.cells.size = m.cells.size := Array.size_replicate

/-- Puts a program at `start`. The room is counted in the full address space, so a memory with fewer
cells can be asked for cells that it does not have, and then there is no result. -/
def load (m : Memory) (start : Nat) (program : List UInt8) : Option (Except MemoryError Memory) :=
  let available := space - start
  let stop := start + program.length
  if space < start ∨ available < program.length then
    some (.error (.tooLarge program.length available))
  else if m.cells.size < stop then none
  else some (.ok ⟨(m.bytes.take start ++ program ++ m.bytes.drop stop).toArray⟩)

section

variable {m : Memory} {start : Nat} {program : List UInt8}

theorem load_of_fits (fits : start + program.length ≤ space)
    (cells : start + program.length ≤ m.cells.size) :
    m.load start program = some (.ok
      ⟨(m.bytes.take start ++ program ++ m.bytes.drop (start + program.length)).toArray⟩) := by
  have accepted : ¬ (space < start ∨ space - start < program.length) := by omega
  simp only [load, if_neg accepted, if_neg (Nat.not_lt_of_le cells)]

theorem load_of_short (fits : start + program.length ≤ space)
    (short : m.cells.size < start + program.length) : m.load start program = none := by
  have accepted : ¬ (space < start ∨ space - start < program.length) := by omega
  simp only [load, if_neg accepted, if_pos short]

theorem load_of_large (large : space < start + program.length) :
    m.load start program = some (.error (.tooLarge program.length (space - start))) := by
  have refused : space < start ∨ space - start < program.length := by omega
  simp only [load, if_pos refused]

theorem isSome_load (enough : space ≤ m.cells.size) : (m.load start program).isSome = true := by
  by_cases fits : start + program.length ≤ space
  · rw [load_of_fits fits (Nat.le_trans fits enough), Option.isSome_some]
  · rw [load_of_large (Nat.lt_of_not_le fits), Option.isSome_some]

end

theorem size_load {m m' : Memory} {start : Nat} {program : List UInt8}
    (h : m.load start program = some (.ok m')) : m'.cells.size = m.cells.size := by
  unfold load at h
  dsimp only at h
  split at h
  · cases h
  · split at h
    · cases h
    · cases h
      simp only [bytes, List.size_toArray, List.length_append, List.length_take, List.length_drop,
        Array.length_toList]
      omega

/-- The cells from `start` on with their addresses, `count` of them or up to the end of the
address space, if they are all there. -/
def dump (m : Memory) (start count : Nat) : Option (List (Nat × UInt8)) :=
  (List.range' start (min (start + count) space - start)).mapM fun a =>
    m.cells[a]?.map fun b => (a, b)

def nonzero (m : Memory) : List (Nat × UInt8) :=
  (m.bytes.zipIdx.map fun (b, a) => (a, b)).filter fun (_, b) => b != 0

def summary (m : Memory) : List Char :=
  "Memory \x7b non_zero_cells: ".toList ++ decimal (m.bytes.countP (· != 0)) ++
    ", total_cells: ".toList ++ decimal space ++ " \x7d".toList

end Memory
end Ls8
