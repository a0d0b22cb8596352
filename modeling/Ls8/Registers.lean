import Ls8.Text.Numeral

/-! The register file: eight bytes R0 to R7, the program counter, and three comparison bits. -/
namespace Ls8

open Text (decimal)

/-- What the latest comparison found. Each comparison sets all three bits anew. -/
structure Flags where
  equal : Bool
  greater : Bool
  less : Bool
  deriving DecidableEq

namespace Flags

def unset : Flags := ⟨false, false, false⟩

def compare (a b : UInt8) : Flags := ⟨a == b, decide (b < a), decide (a < b)⟩

/-- The bits packed as `00000LGE`. -/
def byte (f : Flags) : UInt8 :=
  f.less.toUInt8 <<< 2 ||| f.greater.toUInt8 <<< 1 ||| f.equal.toUInt8

def text (f : Flags) : List Char :=
  [if f.less then 'L' else '-', if f.greater then 'G' else '-', if f.equal then 'E' else '-']

end Flags

inductive RegisterError where
  | noRegister (index : UInt8)
  | pastEnd (counter : Nat)
  deriving DecidableEq

def RegisterError.message : RegisterError → List Char
  | noRegister i => "register index ".toList ++ decimal i.toNat ++ " out of range (0-7)".toList
  | pastEnd n => "program counter advanced to ".toList ++ decimal n ++
      ", past the end of memory".toList

structure Registers where
  general : Vector UInt8 8
  pc : UInt8
  flags : Flags
  deriving DecidableEq

namespace Registers

def zero : Registers := ⟨Vector.replicate 8 0, 0, .unset⟩

def get (r : Registers) (i : UInt8) : Except RegisterError UInt8 :=
  match r.general[i.toNat]? with
  | some b => .ok b
  | none => .error (.noRegister i)

def set (r : Registers) (i b : UInt8) : Except RegisterError Registers :=
  if i.toNat < 8 then .ok { r with general := r.general.setIfInBounds i.toNat b }
  else .error (.noRegister i)

theorem get_set_self {r r' : Registers} {i b : UInt8} (h : r.set i b = .ok r') :
    r'.get i = .ok b := by
  unfold set at h
  split at h
  · next inside =>
    cases h
    simp [get, inside]
  · cases h

theorem get_set_other {r r' : Registers} {i j b : UInt8} (h : r.set i b = .ok r') (other : j ≠ i) :
    r'.get j = r.get j := by
  unfold set at h
  split at h
  · cases h
    have places : i.toNat ≠ j.toNat := fun e => other (UInt8.toNat_inj.mp e.symm)
    simp [get, Vector.getElem?_setIfInBounds_ne places]
  · cases h

def jump (r : Registers) (target : UInt8) : Registers := { r with pc := target }

def compare (r : Registers) (a b : UInt8) : Registers := { r with flags := .compare a b }

/-- Moves the counter past `width` bytes; it may not leave the address space. -/
def advance (r : Registers) (width : Nat) : Except RegisterError Registers :=
  let next := r.pc.toNat + width
  if next < 256 then .ok (r.jump next.toUInt8) else .error (.pastEnd next)

end Registers
end Ls8
