import Ls8.Proofs.Effect
import Ls8.Proofs.Json.ReadBack
import Ls8.Snapshot

/-! Saved machines are restored. Every part of a processor is read from the JSON that it was saved
as, and the text of a snapshot is read back in both layouts. -/
namespace Ls8

namespace Json

variable {names : List (List Char)} {vs : List Json} {fields : List (List Char × Json)}
  {bound n : Nat}

theorem field?_of_mem {name : List Char} {v : Json} (distinct : (fields.map Prod.fst).Nodup)
    (member : (name, v) ∈ fields) :
    field? (fields.map fun f => (some f.1, f.2)) name = some (some v) := by
  have found : (fields.map fun f => (some f.1, f.2)).filter (·.1 == some name) =
      [(some name, v)] := by
    induction fields with
    | nil => cases member
    | cons f fields ih =>
      rw [List.map_cons, List.nodup_cons] at distinct
      rw [List.map_cons]
      rcases List.mem_cons.mp member with rfl | later
      · have none_left : (fields.map fun f => (some f.1, f.2)).filter (·.1 == some name) = [] := by
          rw [List.filter_eq_nil_iff]
          intro f member
          obtain ⟨g, inside, rfl⟩ := List.mem_map.mp member
          intro same
          have named : g.1 = name := Option.some.inj (eq_of_beq same)
          exact distinct.1 (List.mem_map.mpr ⟨g, inside, named⟩)
        rw [List.filter_cons_of_pos (by simp), none_left]
      · have other : f.1 ≠ name := by
          rintro rfl
          exact distinct.1 (List.mem_map.mpr ⟨_, later, rfl⟩)
        rw [List.filter_cons_of_neg (by simpa using other)]
        exact ih distinct.2 later
  rw [field?, found]

theorem members?_record (distinct : names.Nodup) (same : names.length = vs.length) :
    (record (names.zip vs)).members? names = some (vs.map some) := by
  have left : (names.zip vs).map Prod.fst = names := List.map_fst_zip (Nat.le_of_eq same)
  have right : (names.zip vs).map Prod.snd = vs := List.map_snd_zip (Nat.le_of_eq same.symm)
  have plain : ((names.zip vs).map fun f => (some f.1, f.2)).all (·.1.isSome) = true := by
    simp
  have each : ((names.zip vs).map Prod.fst).mapM
      (field? ((names.zip vs).map fun f => (some f.1, f.2))) =
        some ((names.zip vs).map fun f => some f.2) :=
    mapM_each fun f => field?_of_mem (by rwa [left])
  rw [left] at each
  have values : (names.zip vs).map (fun f => some f.2) = vs.map some :=
    calc (names.zip vs).map (fun f => some f.2)
      _ = ((names.zip vs).map Prod.snd).map some := List.map_map.symm
      _ = vs.map some := by rw [right]
  rw [values] at each
  exact (if_pos plain).trans each

theorem record?_record (distinct : names.Nodup) (same : names.length = vs.length) :
    (record (names.zip vs)).record? names = some vs := by
  rw [record?, members?_record distinct same]
  exact mapM_back (f := some) (fun _ => rfl) vs

theorem below?_nat (small : n < bound) : (nat n).below? bound = some n := by
  have inside : (0 : Int) ≤ n ∧ (n : Int) < bound := by omega
  simp [below?, nat, int, int?, inside]

theorem byte?_nat (b : UInt8) : (nat b.toNat).byte? = some b := by
  rw [byte?, below?_nat b.toNat_lt]
  simp

theorem byteArray?_byteArray (bytes : List UInt8) : byteArray? (byteArray bytes) = some bytes :=
  mapM_back byte?_nat bytes

theorem plain_record (all : ∀ v ∈ vs, Plain v) : Plain (record (names.zip vs)) := by
  apply Plain.object
  intro f member
  obtain ⟨g, inside, rfl⟩ := List.mem_map.mp member
  exact all g.2 (List.of_mem_zip inside).2

theorem plain_nat (n : Nat) : Plain (nat n) := .scalar (by simp)

theorem plain_byteArray (bytes : List UInt8) : Plain (byteArray bytes) := by
  apply Plain.array
  intro v member
  obtain ⟨b, -, rfl⟩ := List.mem_map.mp member
  exact plain_nat b.toNat

end Json

open Json

namespace Instruction

variable {i : Instruction}

theorem ofOpcode_operands (i : Instruction) :
    ofOpcode (i.operands.getD 0 0) (i.operands.getD 1 0) i.opcode = i := by
  cases i with
  | jump c r => cases c <;> rfl
  | binary op a b => cases op <;> rfl
  | _ => rfl

theorem operandNames_nodup (op : Opcode) : (operandNames op).Nodup := by
  cases op <;> decide

theorem length_operandNames (i : Instruction) :
    (operandNames i.opcode).length = i.operands.length := by
  cases i with
  | jump c r => cases c <;> rfl
  | binary op a b => cases op <;> rfl
  | _ => rfl

def saved (i : Instruction) : Json :=
  .record ((operandNames i.opcode).zip (i.operands.map fun b => .nat b.toNat))

theorem record?_saved (i : Instruction) :
    i.saved.record? (operandNames i.opcode) = some (i.operands.map fun b => .nat b.toNat) := by
  apply record?_record (operandNames_nodup i.opcode)
  rw [List.length_map, length_operandNames]

theorem toJson_of_ne (other : i ≠ halt) : i.toJson = .record [(i.opcode.tag, i.saved)] := by
  cases i with
  | halt => exact absurd rfl other
  | _ => rfl

theorem opcode_ne (other : i ≠ halt) : i.opcode ≠ .hlt := by
  cases i with
  | halt => exact absurd rfl other
  | jump c r => cases c <;> simp [opcode, Condition.opcode]
  | binary op a b => cases op <;> simp [opcode, BinaryOp.opcode]
  | _ => simp [opcode]

theorem ofSaved?_toJson (i : Instruction) : ofSaved? i.toJson = some i := by
  by_cases bare : i = halt
  · subst bare
    rfl
  · have known : case? (.record [(i.opcode.tag, i.saved)]) = some (i.opcode.tag, some i.saved) := rfl
    have bytes : (i.operands.map fun b => nat b.toNat).mapM byte? = some i.operands :=
      mapM_back byte?_nat _
    have other := opcode_ne bare
    rw [toJson_of_ne bare, ofSaved?, ofCase?, known]
    simp only [Option.bind_eq_bind, Option.bind_some, Opcode.ofTag?_tag, record?_saved, bytes,
      ofOpcode_operands]
    rfl

theorem isNull_toJson (i : Instruction) : i.toJson.isNull = false := by
  cases i <;> rfl

theorem plain_toJson (i : Instruction) : Plain i.toJson := by
  by_cases bare : i = halt
  · subst bare
    exact .scalar (by simp)
  · have operands : Plain i.saved := by
      apply plain_record
      intro v member
      obtain ⟨b, -, rfl⟩ := List.mem_map.mp member
      exact plain_nat b.toNat
    rw [toJson_of_ne bare]
    apply Plain.object
    exact List.forall_mem_singleton.mpr operands

end Instruction

theorem Flags.ofJson?_toJson (f : Flags) : ofJson? f.toJson = some f := by
  rw [ofJson?, toJson, record?_record (by decide) rfl]
  rfl

theorem Flags.plain_toJson (f : Flags) : Plain f.toJson := by
  apply plain_record
  simp only [List.forall_mem_cons]
  exact ⟨.scalar (by simp), .scalar (by simp), .scalar (by simp), by simp⟩

theorem Registers.ofJson?_toJson (r : Registers) : ofJson? r.toJson = some r := by
  rw [ofJson?, toJson, record?_record (by decide) rfl]
  simp [byteArray?_byteArray, byte?_nat, Flags.ofJson?_toJson]
  rfl

theorem Registers.plain_toJson (r : Registers) : Plain r.toJson := by
  apply plain_record
  simp only [List.forall_mem_cons]
  exact ⟨plain_byteArray _, plain_nat _, r.flags.plain_toJson, by simp⟩

theorem Memory.ofJson?_toJson (m : Memory) : ofJson? m.toJson = some m := by
  rw [ofJson?, toJson, record?_record (by decide) rfl]
  simp [byteArray?_byteArray, bytes]

theorem Memory.plain_toJson (m : Memory) : Plain m.toJson := by
  apply plain_record
  exact List.forall_mem_singleton.mpr (plain_byteArray _)

theorem Status.ofJson?_name (s : Status) : ofJson? (.text s.name) = some s := by
  cases s <;> rfl

namespace Cpu

theorem last?_toJson (last : Option Instruction) :
    last? (some ((last.map Instruction.toJson).getD .null)) = some last := by
  cases last with
  | none => rfl
  | some i => simp [last?, i.isNull_toJson, i.ofSaved?_toJson]

theorem ofJson?_toJson (c : Cpu) : ofJson? c.toJson = some c := by
  have count : (nat c.cycles.toNat).below? UInt64.size = some c.cycles.toNat :=
    below?_nat c.cycles.toNat_lt
  rw [ofJson?, toJson, members?_record (by decide) rfl]
  simp [Registers.ofJson?_toJson, Memory.ofJson?_toJson, Status.ofJson?_name, count, last?_toJson]

theorem plain_toJson (c : Cpu) : Plain c.toJson := by
  have last : Plain ((c.last.map Instruction.toJson).getD .null) := by
    cases c.last with
    | none => exact .scalar (by simp)
    | some i => exact i.plain_toJson
  apply plain_record
  simp only [List.forall_mem_cons]
  exact ⟨c.regs.plain_toJson, c.mem.plain_toJson, .scalar (by simp), plain_nat _, last, by simp⟩

/-- A text that a processor is saved as, in either layout. -/
def SavedAs (c : Cpu) (s : List Char) : Prop := s = c.snapshot ∨ s = c.snapshotIndented

theorem restore?_saved {c : Cpu} {s : List Char} (h : c.SavedAs s) : restore? s = some c := by
  have back : ∀ {l : Layout}, l.Blank → restore? (write l 0 c.toJson) = some c := by
    intro l blank
    rw [restore?, read?_write blank c.plain_toJson 0]
    exact c.ofJson?_toJson
  rcases h with rfl | rfl
  · exact back blank_compact
  · exact back blank_indented

end Cpu

end Ls8
