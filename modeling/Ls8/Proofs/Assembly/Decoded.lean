import Ls8.Proofs.Assembly.Source
import Ls8.Proofs.Disassembly.Fetched
import Ls8.Proofs.Disassembly.Reassembly
import Ls8.Proofs.Step

/-! What an assembled program is read back as. A source without data lines gives the instructions
of its lines again, and none of them names a register or needs a cell that does not exist. -/
namespace Ls8

namespace Assembly

open Disassembly (Row rows rows_encode drop_of_mem_rows)

def Gives (ls : List Line) (k : Slot) (s : List Char) (v : UInt8) : Prop :=
  ∃ c, Operand k s c ∧ Resolves ls c v

/-- An instruction is what a statement of a source means. -/
structure Means (ls : List Line) (name : List Char) (given : List (List Char))
    (i : Instruction) : Prop where
  opcode : Names name i.opcode
  registers : List.Forall₂ (fun s x => x.toNat < 8 ∧ RegisterName s x.toNat)
    (given.take i.registers.length) i.registers
  literals : List.Forall₂ (Gives ls .value) (given.drop i.registers.length) i.literals

theorem slots_opcode (i : Instruction) :
    slots i.opcode = List.replicate i.registers.length .register ++
      List.replicate i.literals.length .value := by
  cases i with
  | jump c r => cases c <;> rfl
  | binary op a b => cases op <;> rfl
  | halt | load r v | print r | compare a b | complement r => rfl

section

variable {ls : List Line} {given : List (List Char)} {cells : List Cell} {bytes : List UInt8}

theorem split_filled {kinds more : List Slot} (h : Filled (kinds ++ more) given cells) :
    Filled kinds (given.take kinds.length) (cells.take kinds.length) ∧
      Filled more (given.drop kinds.length) (cells.drop kinds.length) := by
  induction kinds generalizing given cells with
  | nil => exact ⟨.nil, h⟩
  | cons k kinds ih =>
    cases h with
    | cons first rest => exact ⟨.cons first (ih rest).1, (ih rest).2⟩

theorem gives_of_filled {k : Slot} {n : Nat} (h : Filled (List.replicate n k) given cells)
    (resolves : List.Forall₂ (Resolves ls) cells bytes) :
    List.Forall₂ (Gives ls k) given bytes := by
  induction n generalizing given cells bytes with
  | zero =>
    cases h
    cases resolves
    exact .nil
  | succ n ih =>
    cases h with
    | cons first rest =>
      cases resolves with
      | cons here more => exact .cons ⟨_, first, here⟩ (ih rest more)

theorem registerName_of_gives {s : List Char} {x : UInt8} (h : Gives ls .register s x) :
    x.toNat < 8 ∧ RegisterName s x.toNat := by
  obtain ⟨c, operand, same⟩ := h
  cases operand with
  | register small named =>
    obtain rfl : x = _ := same
    exact ⟨small, named⟩

theorem encode_of_yields {line : Line} {name : List Char} (yields : Yields line cells)
    (statement : line.statement = some (name, given)) (code : name ≠ "DB".toList)
    (resolves : List.Forall₂ (Resolves ls) cells bytes) :
    ∃ i : Instruction, bytes = i.encode ∧ Means ls name given i := by
  cases yields with
  | nothing => cases statement
  | data h =>
    cases statement
    exact absurd rfl code
  | code called filled =>
    cases statement
    obtain ⟨v, operands, same, rest, rfl⟩ := List.forall₂_cons_left_iff.mp resolves
    obtain ⟨i, rfl, rfl⟩ := Instruction.exists_of_operands _
      (rest.length_eq.symm.trans ((length_of_filled filled).trans (length_slots _)))
    rw [slots_opcode] at filled
    obtain ⟨front, back⟩ := split_filled filled
    -- The bytes are cut where the registers end, as the operands are.
    rw [List.length_replicate] at front back
    rw [i.operands_eq] at rest
    have registers := gives_of_filled front (List.forall₂_take_append _ _ _ rest)
    have literals := gives_of_filled back (List.forall₂_drop_append _ _ _ rest)
    exact ⟨i, congrArg (· :: i.operands) same, called,
      registers.imp fun _ _ => registerName_of_gives, literals⟩

end

def Restates (ls : List Line) (statement : List Char × List (List Char)) (r : Row) : Prop :=
  ∃ i, r.item = .instruction i ∧ Means ls statement.1 statement.2 i

/-- The sweep of the bytes of lines has the instruction of each statement, wherever it begins. -/
theorem rows_of_lines {ls more : List Line} {cells : List (List Cell)} {bytes : List UInt8}
    (a : Nat) (yields : List.Forall₂ Yields more cells)
    (plain : ∀ line ∈ more, ∀ name given, line.statement = some (name, given) →
      name ≠ "DB".toList)
    (resolves : List.Forall₂ (Resolves ls) cells.flatten bytes) :
    List.Forall₂ (Restates ls) (more.filterMap Line.statement) (rows a bytes) := by
  induction yields generalizing a bytes with
  | nil =>
    cases resolves
    rw [rows]
    exact .nil
  | @cons line cs more cells here _ ih =>
    obtain ⟨code, later⟩ := List.forall_mem_cons.mp plain
    -- The bytes are those of this line and then those that the later lines are swept from.
    have front := List.forall₂_take cs.length resolves
    have back := List.forall₂_drop cs.length resolves
    rw [List.flatten_cons, List.take_left] at front
    rw [List.flatten_cons, List.drop_left] at back
    have whole := List.take_append_drop cs.length bytes
    generalize bytes.take cs.length = first, bytes.drop cs.length = rest at front back whole
    subst whole
    cases statement : line.statement with
    | none =>
      have empty : cs = [] := by
        cases here with
        | nothing => rfl
        | data h => cases statement
        | code called h => cases statement
      rw [empty] at front
      cases front
      rw [List.filterMap_cons_none statement, List.nil_append]
      exact ih a later back
    | some words =>
      obtain ⟨i, rfl, meant⟩ := encode_of_yields here statement (code _ _ statement) front
      rw [List.filterMap_cons_some statement, rows_encode]
      exact .cons ⟨i, rfl, meant⟩ (ih (a + i.width) later back)

theorem exists_of_mem_right {R : α → β → Prop} {as : List α} {bs : List β} {b : β}
    (h : List.Forall₂ R as bs) (member : b ∈ bs) : ∃ a ∈ as, R a b := by
  induction h with
  | nil => cases member
  | cons one _ ih =>
    rcases List.mem_cons.mp member with rfl | later
    · exact ⟨_, List.mem_cons_self, one⟩
    · obtain ⟨a, inside, related⟩ := ih later
      exact ⟨a, List.mem_cons_of_mem _ inside, related⟩

theorem lt_of_means {ls : List Line} {name : List Char} {given : List (List Char)}
    {i : Instruction} (h : Means ls name given i) : ∀ x ∈ i.registers, x < 8 := by
  intro x member
  obtain ⟨s, -, small, -⟩ := exists_of_mem_right h.registers member
  exact UInt8.lt_iff_toNat_lt.mpr small

theorem fetch_of_mem_rows {c : Cpu} {image more : List UInt8} {r : Row} {i : Instruction}
    (mem : c.mem.bytes = image ++ more) (member : r ∈ rows 0 image)
    (item : r.item = .instruction i) (here : c.regs.pc.toNat = r.address) : c.fetch = .ok i := by
  obtain ⟨before, after, split⟩ := List.append_of_mem member
  have inside : r.address ≤ image.length := by
    have ends := Disassembly.end_le split
    omega
  obtain ⟨rest, left⟩ := drop_of_mem_rows member
  have bytes : c.mem.bytes.drop c.regs.pc.toNat = i.encode ++ (rest ++ more) := by
    rw [mem, here, List.drop_append_of_le_length inside, left, item, Item.bytes,
      List.append_assoc]
  exact Cpu.fetch_of_encode bytes

theorem fault_of_fetched {m : Machine} {i : Instruction} {f : Fault} (fetched : m.cpu.fetch = .ok i)
    (exist : ∀ x ∈ i.registers, x < 8) (failed : m.step.1 = .error f) :
    f = .notRunning m.cpu.status ∨ f = .divideByZero ∨ f = .output ∨
      ∃ n, f = .register (.pastEnd n) := by
  have ended := m.stepped
  rw [failed] at ended
  generalize m.step.2 = m' at ended
  cases ended with
  | idle => exact .inl rfl
  | unread _ missing =>
    rw [fetched] at missing
    cases missing
  | unable _ same asked =>
    cases fetched.symm.trans same
    rcases fault_of_effect asked with ⟨x, member, missing, -⟩ | division
    · exact absurd (exist x member) (UInt8.not_lt.mpr missing)
    · exact .inr (.inl division)
  | unprinted => exact .inr (.inr (.inl rfl))
  | atEnd => exact .inr (.inr (.inr ⟨_, rfl⟩))

/-- A source without data lines is the program it assembles to: the sweep of the bytes gives one
instruction for each statement, the one it means. A processor at any of them fetches it, and its
step does not fail for want of an opcode, a cell or a register. -/
theorem assembled_decodes {source : List Char} {ls : List Line} {b : List UInt8}
    (written : Written source ls) (assembled : assemble source = .ok b)
    (plain : ∀ line ∈ ls, ∀ name given, line.statement = some (name, given) →
      name ≠ "DB".toList) :
    List.Forall₂ (Restates ls) (ls.filterMap Line.statement) (rows 0 b) ∧
    (∀ r ∈ rows 0 b, ∀ x ∈ r.item.registers, x < 8) ∧
    ∀ (m : Machine) (r : Row),
      m.cpu.mem.bytes = b ++ List.replicate (Memory.space - b.length) 0 →
      r ∈ rows 0 b → m.cpu.regs.pc.toNat = r.address →
      (∃ i, r.item = .instruction i ∧ m.cpu.fetch = .ok i) ∧
      (∀ pc x, m.step.1 ≠ .error (.decode pc (.unknownOpcode x))) ∧
      (∀ a, m.step.1 ≠ .error (.memory (.noCell a))) ∧
      ∀ x, m.step.1 ≠ .error (.register (.noRegister x)) := by
  obtain rfl := written_iff.mp written
  obtain ⟨cells, sound, resolves⟩ := assemble_eq_ok.mp assembled
  have sweep := rows_of_lines 0 sound.formed plain resolves
  have each : ∀ r ∈ rows 0 b, ∃ i, r.item = .instruction i ∧ ∀ x ∈ i.registers, x < 8 := by
    intro r member
    obtain ⟨_, -, i, item, meant⟩ := exists_of_mem_right sweep member
    exact ⟨i, item, lt_of_means meant⟩
  refine ⟨sweep, ?_, ?_⟩
  · intro r member
    obtain ⟨i, item, exist⟩ := each r member
    rw [item]
    exact exist
  · intro m r mem member here
    obtain ⟨i, item, exist⟩ := each r member
    have fetched := fetch_of_mem_rows mem member item here
    refine ⟨⟨i, item, fetched⟩, ?_, ?_, ?_⟩
    · intro pc x failed
      rcases fault_of_fetched fetched exist failed with h | h | h | ⟨n, h⟩ <;> cases h
    · intro a failed
      rcases fault_of_fetched fetched exist failed with h | h | h | ⟨n, h⟩ <;> cases h
    · intro x failed
      rcases fault_of_fetched fetched exist failed with h | h | h | ⟨n, h⟩ <;> cases h

def labelled : List Char :=
  "LDI R3,END\nLDI R+2,0x7\nMOD r3,R2\nPRN R3\nEND: HALT".toList

theorem assembled_decodes_labelled :
    let b : List UInt8 := [0x82, 3, 11, 0x82, 2, 7, 0xA6, 3, 2, 0x47, 3, 1]
    let mem : Memory := ⟨(b ++ List.replicate 244 0).toArray⟩
    let cpu : Cpu := { Cpu.new with mem := mem, regs := { Registers.zero with pc := 6 } }
    let ls : List Line := [
      ⟨none, some ("LDI".toList, ["R3".toList, "END".toList])⟩,
      ⟨none, some ("LDI".toList, ["R+2".toList, "0x7".toList])⟩,
      ⟨none, some ("MOD".toList, ["r3".toList, "R2".toList])⟩,
      ⟨none, some ("PRN".toList, ["R3".toList])⟩, ⟨some "END".toList, some ("HALT".toList, [])⟩]
    Written labelled ls ∧ assemble labelled = .ok b ∧
      List.Forall₂ (Restates ls) (ls.filterMap Line.statement)
        [⟨0, .instruction (.load 3 11), [0x82, 3, 11]⟩,
          ⟨3, .instruction (.load 2 7), [0x82, 2, 7]⟩,
          ⟨6, .instruction (.binary .mod 3 2), [0xA6, 3, 2]⟩,
          ⟨9, .instruction (.print 3), [0x47, 3]⟩, ⟨11, .instruction .halt, [1]⟩] ∧
      cpu.fetch = .ok (.binary .mod 3 2) := by
  intro b mem cpu ls
  have assembled : assemble labelled = .ok b := by decide +kernel
  have written : Written labelled ls := written_iff.mpr (by decide +kernel)
  have plain : ∀ line ∈ ls, ∀ name given, line.statement = some (name, given) →
      name ≠ "DB".toList := by
    have names : ∀ words ∈ ls.filterMap Line.statement, words.1 ≠ "DB".toList := by
      decide +kernel
    intro line member name given statement
    exact names _ (List.mem_filterMap.mpr ⟨line, member, statement⟩)
  obtain ⟨sweep, -, steps⟩ := assembled_decodes written assembled plain
  have image : b = Instruction.encode (.load 3 11) ++ (Instruction.encode (.load 2 7) ++
      (Instruction.encode (.binary .mod 3 2) ++ (Instruction.encode (.print 3) ++
        (Instruction.encode .halt ++ [])))) := rfl
  have swept : rows 0 b = [⟨0, .instruction (.load 3 11), [0x82, 3, 11]⟩,
      ⟨3, .instruction (.load 2 7), [0x82, 2, 7]⟩,
      ⟨6, .instruction (.binary .mod 3 2), [0xA6, 3, 2]⟩,
      ⟨9, .instruction (.print 3), [0x47, 3]⟩, ⟨11, .instruction .halt, [1]⟩] := by
    rw [image]
    simp only [rows_encode, rows]
    rfl
  rw [swept] at sweep steps
  have bytes : cpu.mem.bytes = b ++ List.replicate (Memory.space - b.length) 0 := rfl
  obtain ⟨⟨i, item, fetched⟩, -⟩ := steps ⟨cpu, .endless⟩
    ⟨6, .instruction (.binary .mod 3 2), [0xA6, 3, 2]⟩ bytes (by simp) rfl
  cases item
  exact ⟨written, assembled, sweep, fetched⟩

end Assembly
end Ls8
