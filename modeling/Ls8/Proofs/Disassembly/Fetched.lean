import Ls8.Cpu
import Ls8.Proofs.Disassembly.Shown
import Ls8.Proofs.Effect

/-! What is fetched and what is shown. The processor reads an instruction cell by cell and the
disassembler cuts it out of the image; both find the same one, and its text says which it is. -/
namespace Ls8

namespace Instruction

theorem eq_of_parts {i j : Instruction} (code : i.opcode = j.opcode)
    (given : i.operands = j.operands) : i = j := by
  have left := decode_encode i []
  rw [code, given, decode_encode j []] at left
  exact (Except.ok.inj left).symm

theorem decode_take {b : UInt8} {rest : List UInt8} {i : Instruction}
    (h : decode b rest = .ok i) : decode b (rest.take i.opcode.operandCount) = .ok i := by
  have whole := encode_of_decode h
  have width : i.width - 1 = i.opcode.operandCount := Nat.add_sub_cancel_left 1 _
  rw [width, encode, List.cons.injEq] at whole
  have alone := decode_encode i []
  rwa [List.append_nil, whole.1, whole.2] at alone

theorem opcode_of_decode {b : UInt8} {rest : List UInt8} {i : Instruction}
    (h : decode b rest = .ok i) : Opcode.ofByte? b = some i.opcode := by
  have first := (List.cons.inj (encode_of_decode h)).1
  rw [← first, Opcode.ofByte?_byte]

theorem length_registers {i j : Instruction} (code : i.opcode = j.opcode) :
    i.registers.length = j.registers.length := by
  have table : ∀ i : Instruction,
      i.registers.length = (ofOpcode 0 0 i.opcode).registers.length := by
    intro i
    cases i with
    | jump c r => cases c <;> rfl
    | binary op a b => cases op <;> rfl
    | _ => rfl
  rw [table i, table j, code]

end Instruction

namespace Item

/-- No two items have the same text. -/
theorem text_injective {it it' : Item} (h : it.text = it'.text) : it = it' := by
  -- A text is taken apart into the mnemonic and the operands again.
  have words : (it.name, it.given) = (it'.name, it'.given) := by
    rw [← it.split_text, ← it'.split_text, h]
  obtain ⟨name, given⟩ := Prod.ext_iff.mp words
  cases it with
  | instruction i =>
    cases it' with
    | instruction j =>
      have code : i.opcode = j.opcode := Assembly.mnemonic_injective name
      have count : (i.registers.map Instruction.registerName).length =
          (j.registers.map Instruction.registerName).length := by
        rw [List.length_map, List.length_map, Instruction.length_registers code]
      obtain ⟨regs, values⟩ := List.append_inj given count
      have registerName : Function.Injective Instruction.registerName :=
        fun a b same => UInt8.toNat_inj.mp (Text.decimal_injective (List.cons.inj same).2)
      have decimal : Function.Injective fun v : UInt8 => Text.decimal v.toNat :=
        fun a b same => UInt8.toNat_inj.mp (Text.decimal_injective same)
      have operands : i.operands = j.operands := by
        rw [i.operands_eq, j.operands_eq, List.map_injective_iff.mpr registerName regs,
          List.map_injective_iff.mpr decimal values]
      rw [Instruction.eq_of_parts code operands]
    | data b => exact absurd name (Assembly.mnemonic_ne_data i.opcode)
  | data b =>
    cases it' with
    | instruction j => exact absurd name.symm (Assembly.mnemonic_ne_data j.opcode)
    | data b' =>
      have digits := List.append_cancel_left (List.cons.inj given).1
      rw [Text.bits_injective digits]

end Item

namespace Cpu

variable {c : Cpu}

theorem readAt_of_drop {a : Nat} {b : UInt8} {rest : List UInt8}
    (h : c.mem.bytes.drop a = b :: rest) : c.readAt a = .ok b := by
  have cell : c.mem.bytes[a]? = some b := by
    rw [← List.head?_drop, h]
    rfl
  rw [Memory.bytes, Array.getElem?_toList] at cell
  simp [readAt, Memory.read, cell, Except.mapError]

theorem readAt_of_end {a : Nat} (h : c.mem.bytes.drop a = []) :
    c.readAt a = .error (.memory (.noCell a)) := by
  have cell : c.mem.bytes[a]? = none := by
    rw [← List.head?_drop, h]
    rfl
  rw [Memory.bytes, Array.getElem?_toList] at cell
  simp [readAt, Memory.read, cell, Except.mapError]

theorem lt_size_of_drop {a : Nat} {b : UInt8} {rest : List UInt8}
    (h : c.mem.bytes.drop a = b :: rest) : a < c.mem.cells.size := by
  have size : c.mem.bytes.length = c.mem.cells.size := Array.length_toList
  have some_left := congrArg List.length h
  rw [List.length_drop, List.length_cons] at some_left
  omega

theorem mapM_readAt {a count : Nat} {rest : List UInt8} (h : c.mem.bytes.drop a = rest)
    (inside : a ≤ c.mem.cells.size) :
    (List.range' a count).mapM c.readAt =
      if count ≤ rest.length then .ok (rest.take count)
      else .error (.memory (.noCell c.mem.cells.size)) := by
  have size : c.mem.bytes.length = c.mem.cells.size := Array.length_toList
  induction count generalizing a rest with
  | zero => simp [pure, Except.pure]
  | succ count ih =>
    rw [List.range'_succ, List.mapM_cons]
    cases rest with
    | nil =>
      have past : c.mem.cells.size = a := by
        have beyond := List.drop_eq_nil_iff.mp h
        omega
      simp [readAt_of_end h, past, bind, Except.bind]
    | cons b rest =>
      have next : c.mem.bytes.drop (a + 1) = rest := by
        rw [← List.drop_drop, h]
        rfl
      rw [readAt_of_drop h, ih next (lt_size_of_drop h)]
      by_cases enough : count ≤ rest.length
      · simp [enough, bind, Except.bind, pure, Except.pure]
      · simp [enough, bind, Except.bind]

def misread (c : Cpu) : DecodeError → Fault
  | .unknownOpcode b => .decode c.regs.pc (.unknownOpcode b)
  | .missingOperands .. => .memory (.noCell c.mem.cells.size)

theorem fetch_of_end (h : c.mem.bytes.drop c.regs.pc.toNat = []) :
    c.fetch = .error (.memory (.noCell c.regs.pc.toNat)) := by
  simp [fetch, readAt_of_end h, bind, Except.bind]

theorem fetch_of_drop {b : UInt8} {rest : List UInt8}
    (h : c.mem.bytes.drop c.regs.pc.toNat = b :: rest) :
    c.fetch = (Instruction.decode b rest).mapError c.misread := by
  have next : c.mem.bytes.drop (c.regs.pc.toNat + 1) = rest := by
    rw [← List.drop_drop, h]
    rfl
  simp only [fetch, readAt_of_drop h, bind, Except.bind]
  cases known : Opcode.ofByte? b with
  | none => simp [Instruction.decode, known, misread, Except.mapError]
  | some op =>
    simp only [readOperands, mapM_readAt next (lt_size_of_drop h)]
    by_cases enough : op.operandCount ≤ rest.length
    · obtain ⟨i, decoded⟩ : ∃ i, Instruction.decode b rest = .ok i := by
        simp [Instruction.decode, known, Nat.not_lt_of_le enough]
      have code : i.opcode = op :=
        Option.some.inj ((Instruction.opcode_of_decode decoded).symm.trans known)
      have alone := Instruction.decode_take decoded
      rw [code] at alone
      simp only [if_pos enough, alone, decoded, Except.mapError]
    · have short : rest.length < op.operandCount := Nat.lt_of_not_le enough
      simp [enough, Instruction.decode, known, short, misread, Except.mapError]

theorem fetch_of_encode {i : Instruction} {rest : List UInt8}
    (h : c.mem.bytes.drop c.regs.pc.toNat = i.encode ++ rest) : c.fetch = .ok i := by
  rw [Instruction.encode, List.cons_append] at h
  rw [fetch_of_drop h, Instruction.decode_encode]
  rfl

end Cpu

namespace Disassembly

theorem textAt_eq_none {image : List UInt8} {a : Nat} :
    textAt image a = ([], 0) ↔ item? image a = none := by
  unfold textAt
  cases item? image a with
  | none => simp
  | some it => simp [it.bare_text.1]

theorem textAt_eq_some {image : List UInt8} {a : Nat} {it : Item} :
    textAt image a = (it.text, it.width) ↔ item? image a = some it := by
  unfold textAt
  cases item? image a with
  | none => simp [it.bare_text.1.symm]
  | some it' =>
    simp only [Option.some.injEq]
    constructor
    · intro same
      exact Item.text_injective (congrArg Prod.fst same)
    · rintro rfl
      rfl

/-- What the processor fetches at its counter and the item that the disassembler finds there. -/
inductive Found (c : Cpu) : Except Fault Instruction → Option Item → Prop where
  | nothing (none_left : c.mem.bytes.drop c.regs.pc.toNat = []) :
      Found c (.error (.memory (.noCell c.regs.pc.toNat))) none
  | instruction {i : Instruction} {rest : List UInt8}
      (here : c.mem.bytes.drop c.regs.pc.toNat = i.encode ++ rest) :
      Found c (.ok i) (some (.instruction i))
  | unknown {b : UInt8} {rest : List UInt8}
      (here : c.mem.bytes.drop c.regs.pc.toNat = b :: rest) :
      Found c (.error (.decode c.regs.pc (.unknownOpcode b))) (some (.data b))
  | truncated {b : UInt8} {rest : List UInt8}
      (here : c.mem.bytes.drop c.regs.pc.toNat = b :: rest) :
      Found c (.error (.memory (.noCell c.mem.cells.size))) (some (.data b))

theorem unknownOpcode_of_decode {b b' : UInt8} {rest : List UInt8}
    (h : Instruction.decode b rest = .error (.unknownOpcode b')) : b' = b := by
  unfold Instruction.decode at h
  split at h
  · cases h
    rfl
  · split at h <;> cases h

theorem found (c : Cpu) : Found c c.fetch (item? c.mem.bytes c.regs.pc.toNat) := by
  unfold item?
  cases here : c.mem.bytes.drop c.regs.pc.toNat with
  | nil =>
    rw [Cpu.fetch_of_end here]
    exact .nothing here
  | cons b rest =>
    rw [Cpu.fetch_of_drop here]
    simp only [Item.ofBytes]
    cases decoded : Instruction.decode b rest with
    | ok i =>
      have bytes : b :: rest = i.encode ++ rest.drop (i.width - 1) := by
        rw [Instruction.encode_of_decode decoded, List.cons_append, List.take_append_drop]
      exact .instruction (here.trans bytes)
    | error e =>
      cases e with
      | unknownOpcode b' =>
        rw [unknownOpcode_of_decode decoded]
        exact .unknown here
      | missingOperands => exact .truncated here

section

variable {c : Cpu} {r : Except Fault Instruction} {shown : Option Item}

theorem found_instruction (h : Found c r shown) (i : Instruction) :
    r = .ok i ↔ shown = some (.instruction i) := by
  cases h <;> simp

theorem found_bytes {i : Instruction} (h : Found c (.ok i) shown) :
    i.encode = (c.mem.bytes.drop c.regs.pc.toNat).take i.width := by
  cases h with
  | instruction here => rw [here, ← i.length_encode, List.take_left]

theorem found_data (h : Found c r shown) :
    ((∃ b, r = .error (.decode c.regs.pc (.unknownOpcode b))) ∨
      ∃ a, c.regs.pc.toNat < a ∧ r = .error (.memory (.noCell a))) ↔
    ∃ b, shown = some (.data b) := by
  cases h with
  | nothing => simp
  | instruction => simp
  | unknown => simp
  | truncated here => simpa using Cpu.lt_size_of_drop here

theorem found_nothing (h : Found c r shown) :
    r = .error (.memory (.noCell c.regs.pc.toNat)) ↔ shown = none := by
  cases h with
  | nothing => simp
  | instruction => simp
  | unknown => simp
  | truncated here =>
    have inside := Cpu.lt_size_of_drop here
    simp [Nat.ne_of_gt inside]

theorem found_byte {b : UInt8} (h : Found c r (some (.data b))) :
    c.mem.bytes[c.regs.pc.toNat]? = some b := by
  cases h with
  | unknown here | truncated here => simp [← List.head?_drop, here]

end

/-- What the processor fetches is what the disassembler shows: an instruction is shown by its text,
a byte that begins none or one that is cut off as data, and nothing past the end of the memory. -/
theorem fetch_shown (c : Cpu) :
    let pc := c.regs.pc.toNat
    let shown := textAt c.mem.bytes pc
    (∀ i, c.fetch = .ok i ↔ shown = (i.text, i.width)) ∧
    (∀ i, c.fetch = .ok i → i.encode = (c.mem.bytes.drop pc).take i.width) ∧
    (((∃ b, c.fetch = .error (.decode c.regs.pc (.unknownOpcode b))) ∨
        ∃ a, pc < a ∧ c.fetch = .error (.memory (.noCell a))) ↔
      ∃ b, shown = ("DB 0b".toList ++ Text.bits b, 1)) ∧
    (∀ a, pc < a → c.fetch = .error (.memory (.noCell a)) → a = c.mem.cells.size) ∧
    (∀ b, shown = ("DB 0b".toList ++ Text.bits b, 1) → c.mem.bytes[pc]? = some b) ∧
    (c.fetch = .error (.memory (.noCell pc)) ↔ shown = ([], 0)) ∧
    ∀ a b needed count, c.fetch ≠ .error (.decode a (.missingOperands b needed count)) := by
  intro pc shown
  have h := found c
  have code : ∀ i : Instruction,
      shown = (i.text, i.width) ↔ item? c.mem.bytes pc = some (.instruction i) :=
    fun i => @textAt_eq_some _ _ (.instruction i)
  have data : ∀ b,
      shown = ("DB 0b".toList ++ Text.bits b, 1) ↔ item? c.mem.bytes pc = some (.data b) :=
    fun b => @textAt_eq_some _ _ (.data b)
  simp only [code, data, shown, textAt_eq_none]
  refine ⟨found_instruction h, ?_, found_data h, ?_, ?_, found_nothing h, ?_⟩
  · intro i fetched
    rw [fetched] at h
    exact found_bytes h
  · intro a later missing
    rw [missing] at h
    generalize item? c.mem.bytes c.regs.pc.toNat = item at h
    cases h with
    | nothing => exact absurd later (Nat.lt_irrefl _)
    | truncated => rfl
  · intro b here
    rw [here] at h
    exact found_byte h
  · intro a b needed count missing
    rw [missing] at h
    cases h

end Disassembly
end Ls8
