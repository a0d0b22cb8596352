import Ls8.Cpu
import Ls8.Json.Fields
import Ls8.Json.Reader
import Ls8.Json.Writer

/-! Saved machines. A snapshot is JSON with everything a processor holds, and a processor can be
made from it again. A restored memory has as many cells as the snapshot lists. Records inside a
snapshot may be arrays; an instruction by itself has to name its operands. -/
namespace Ls8

def byteArray (bytes : List UInt8) : Json := .array (bytes.map fun b => .nat b.toNat)

def byteArray? (v : Json) : Option (List UInt8) := v.items?.bind (·.mapM Json.byte?)

namespace Instruction

def operandNames : Opcode → List (List Char)
  | .hlt => []
  | .ldi => ["reg".toList, "imm".toList]
  | .prn | .jmp | .jeq | .jne | .not => ["reg".toList]
  | .cmp | .and | .or | .shl | .shr | .mod | .xor => ["a".toList, "b".toList]

def toJson (i : Instruction) : Json :=
  match i with
  | halt => .text i.opcode.tag
  | _ => .record [(i.opcode.tag,
      .record ((operandNames i.opcode).zip (i.operands.map fun b => .nat b.toNat)))]

def ofCase? (record? : List (List Char) → Json → Option (List Json)) (v : Json) :
    Option Instruction := do
  let (name, operands) ← v.case?
  let op ← Opcode.ofTag? name
  match op, operands with
  | .hlt, none => return halt
  | .hlt, some w => if w.isNull then some halt else none
  | _, none => none
  | _, some w =>
    let bytes ← (← record? (operandNames op) w).mapM Json.byte?
    return ofOpcode (bytes.getD 0 0) (bytes.getD 1 0) op

def ofJson? : Json → Option Instruction := ofCase? Json.namedRecord?

def ofSaved? : Json → Option Instruction := ofCase? Json.record?

end Instruction

namespace Flags

def names : List (List Char) := ["equal".toList, "greater".toList, "less".toList]

def toJson (f : Flags) : Json :=
  .record (names.zip [.bool f.equal, .bool f.greater, .bool f.less])

def ofJson? (v : Json) : Option Flags := do
  match ← (← v.record? names).mapM Json.bool? with
  | [equal, greater, less] => some ⟨equal, greater, less⟩
  | _ => none

end Flags

namespace Registers

def names : List (List Char) := ["gp".toList, "pc".toList, "flags".toList]

def toJson (r : Registers) : Json :=
  .record (names.zip [byteArray r.general.toList, .nat r.pc.toNat, r.flags.toJson])

def ofJson? (v : Json) : Option Registers := do
  match ← v.record? names with
  | [general, pc, flags] =>
    let bytes := (← byteArray? general).toArray
    if h : bytes.size = 8 then return ⟨⟨bytes, h⟩, ← pc.byte?, ← Flags.ofJson? flags⟩ else none
  | _ => none

end Registers

namespace Memory

def names : List (List Char) := ["cells".toList]

def toJson (m : Memory) : Json := .record (names.zip [byteArray m.bytes])

def ofJson? (v : Json) : Option Memory := do
  match ← v.record? names with
  | [cells] => return ⟨(← byteArray? cells).toArray⟩
  | _ => none

end Memory

namespace Status

def ofName? (name : List Char) : Option Status :=
  [running, halted, error].find? fun s => s.name == name

def ofJson? (v : Json) : Option Status := v.bareCase?.bind ofName?

end Status

namespace Cpu

def names : List (List Char) :=
  ["regs".toList, "mem".toList, "state".toList, "cycles".toList, "last_instr".toList]

def toJson (c : Cpu) : Json :=
  .record (names.zip [c.regs.toJson, c.mem.toJson, .text c.status.name, .nat c.cycles.toNat,
    (c.last.map Instruction.toJson).getD .null])

/-- The instruction executed last; no value and null both say that there is none. -/
def last? : Option Json → Option (Option Instruction)
  | none => some none
  | some v => if v.isNull then some none else (Instruction.ofSaved? v).map some

def ofJson? (v : Json) : Option Cpu := do
  match ← v.members? names with
  | [some regs, some mem, some status, some cycles, last] =>
    return ⟨← Registers.ofJson? regs, ← Memory.ofJson? mem, ← Status.ofJson? status,
      (← cycles.below? UInt64.size).toUInt64, ← last? last⟩
  | _ => none

def snapshot (c : Cpu) : List Char := c.toJson.compact

def snapshotIndented (c : Cpu) : List Char := c.toJson.indented

def restore? (s : List Char) : Option Cpu := (Json.read? s).bind ofJson?

end Cpu
end Ls8
