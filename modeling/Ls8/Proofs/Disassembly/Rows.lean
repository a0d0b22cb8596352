import Mathlib
import Ls8.Disassembly

/-! The rows of an image as a whole: they are the bytes of their items, one item after another. -/
namespace Ls8

namespace Instruction

/-- The operands that name registers; the second one of `LDI` is a value. -/
def registers : Instruction → List UInt8
  | load r _ => [r]
  | i => i.operands

def literals : Instruction → List UInt8
  | load _ v => [v]
  | _ => []

theorem operands_eq (i : Instruction) : i.operands = i.registers ++ i.literals := by
  cases i <;> rfl

theorem encode_of_decode {b : UInt8} {rest : List UInt8} {i : Instruction}
    (h : decode b rest = .ok i) : i.encode = b :: rest.take (i.width - 1) := by
  unfold decode at h
  cases known : Opcode.ofByte? b with
  | none => simp [known] at h
  | some op =>
    by_cases short : rest.length < op.operandCount
    · simp [known, short] at h
    · simp only [known, if_neg short, Except.ok.injEq] at h
      have byte := Opcode.byte_of_ofByte? known
      have tail : i.operands = rest.take op.operandCount := by
        have count := operandCount_eq op
        rw [← h]
        rw [count] at short ⊢
        match rest with
        | [] => cases op <;> simp [ofOpcode, operands] at short ⊢
        | [x] => cases op <;> simp [ofOpcode, operands] at short ⊢
        | x :: y :: more => cases op <;> simp [ofOpcode, operands]
      have width : i.width - 1 = op.operandCount := by
        rw [← h, width, opcode_ofOpcode]
        omega
      rw [encode, tail, width, ← byte, ← h, opcode_ofOpcode]

theorem exists_of_operands (op : Opcode) {given : List UInt8}
    (count : given.length = op.operandCount) :
    ∃ i : Instruction, i.opcode = op ∧ i.operands = given := by
  have decoded := decode_byte (Nat.le_of_eq count.symm)
  have code := opcode_ofOpcode (given.getD 0 0) (given.getD 1 0) op
  have whole := (List.cons.inj (encode_of_decode decoded)).2
  rw [width, code, Nat.add_sub_cancel_left, ← count, List.take_length] at whole
  exact ⟨_, code, whole⟩

end Instruction

namespace Item

def bytes : Item → List UInt8
  | instruction i => i.encode
  | data b => [b]

def registers : Item → List UInt8
  | instruction i => i.registers
  | data _ => []

def literals : Item → List UInt8
  | instruction i => i.literals
  | data _ => []

def head : Item → UInt8
  | instruction i => i.opcode.byte
  | data b => b

theorem bytes_eq (it : Item) : it.bytes = it.head :: (it.registers ++ it.literals) := by
  cases it with
  | instruction i => exact congrArg (i.opcode.byte :: ·) i.operands_eq
  | data b => rfl

theorem width_le (it : Item) : it.width ≤ 3 := by
  have count : ∀ op : Opcode, op.operandCount ≤ 2 := by
    intro op
    cases op <;> decide
  cases it with
  | instruction i =>
    have operands := count i.opcode
    change 1 + i.opcode.operandCount ≤ 3
    omega
  | data b => exact Nat.le_of_lt (by decide : 1 < 3)

theorem length_bytes (it : Item) : it.bytes.length = it.width := by
  cases it with
  | instruction i => exact i.length_encode
  | data b => rfl

theorem bytes_ofBytes (b : UInt8) (rest : List UInt8) :
    (ofBytes b rest).bytes = b :: rest.take ((ofBytes b rest).width - 1) := by
  unfold ofBytes
  cases decoded : Instruction.decode b rest with
  | ok i => exact Instruction.encode_of_decode decoded
  | error e => rfl

end Item

namespace Disassembly

def extent (rs : List Row) : Nat := (rs.map fun r => r.item.width).sum

theorem raw_of_mem_rows {a : Nat} {image : List UInt8} {r : Row} (h : r ∈ rows a image) :
    r.raw = r.item.bytes := by
  fun_induction rows a image with
  | case1 => cases h
  | case2 a b rest it ih =>
    rcases List.mem_cons.mp h with rfl | later
    · exact (Item.bytes_ofBytes b rest).symm
    · exact ih later

theorem flatMap_bytes_rows (a : Nat) (image : List UInt8) :
    (rows a image).flatMap (fun r => r.item.bytes) = image := by
  have same : (rows a image).map Row.raw = (rows a image).map fun r => r.item.bytes :=
    List.map_congr_left fun r member => raw_of_mem_rows member
  have raws := flatMap_raw_rows a image
  rwa [List.flatMap_def, same, ← List.flatMap_def] at raws

theorem width_textAt_pos {image : List UInt8} {a : Nat} (inside : a < image.length) :
    0 < (textAt image a).2 := by
  obtain ⟨b, rest, here⟩ : ∃ b rest, image.drop a = b :: rest :=
    List.exists_cons_of_ne_nil (by simpa using inside)
  rw [textAt, item?, here]
  exact Item.width_pos _

theorem rows_encode (a : Nat) (i : Instruction) (rest : List UInt8) :
    rows a (i.encode ++ rest) =
      ⟨a, .instruction i, i.encode⟩ :: rows (a + i.width) rest := by
  have item : Item.ofBytes i.opcode.byte (i.operands ++ rest) = .instruction i := by
    rw [Item.ofBytes, Instruction.decode_encode]
  have width : (Item.instruction i).width - 1 = i.operands.length := by
    rw [i.length_operands]
    exact Nat.add_sub_cancel_left 1 _
  rw [Instruction.encode, List.cons_append, rows, item, width, List.take_left, List.drop_left]
  rfl

theorem extent_rows (a : Nat) (image : List UInt8) : extent (rows a image) = image.length := by
  have lengths := congrArg List.length (flatMap_bytes_rows a image)
  simpa [extent, List.length_flatMap, Item.length_bytes] using lengths

theorem extent_append (xs ys : List Row) : extent (xs ++ ys) = extent xs + extent ys := by
  simp [extent]

/-- From a row on, the rows are those of the bytes that are left. -/
theorem rows_of_split {a : Nat} {image : List UInt8} {before after : List Row} {r : Row}
    (h : rows a image = before ++ r :: after) :
    rows (a + extent before) (image.drop (extent before)) = r :: after := by
  fun_induction rows a image generalizing before with
  | case1 => simp at h
  | case2 a b rest it =>
    rename_i ih
    cases before with
    | nil =>
      rw [extent, List.map_nil, List.sum_nil, Nat.add_zero, List.drop_zero, rows]
      exact h
    | cons first before =>
      obtain ⟨rfl, later⟩ := List.cons.inj h
      have width : extent (⟨a, it, b :: rest.take (it.width - 1)⟩ :: before) =
          it.width - 1 + extent before + 1 := by
        have positive := it.width_pos
        simp only [extent, List.map_cons, List.sum_cons]
        omega
      have place : a + (it.width - 1 + extent before + 1) = a + it.width + extent before := by
        have positive := it.width_pos
        omega
      rw [width, List.drop_succ_cons, ← List.drop_drop, place]
      exact ih later

theorem head_of_rows {a : Nat} {image : List UInt8} {after : List Row} {r : Row}
    (h : rows a image = r :: after) :
    r.address = a ∧ ∃ b rest, image = b :: rest ∧ Item.ofBytes b rest = r.item := by
  cases image with
  | nil => simp [rows] at h
  | cons b rest =>
    rw [rows] at h
    cases h
    exact ⟨rfl, b, rest, rfl, rfl⟩

theorem address_of_split {a : Nat} {image : List UInt8} {before after : List Row} {r : Row}
    (h : rows a image = before ++ r :: after) : r.address = a + extent before :=
  (head_of_rows (rows_of_split h)).1

theorem item?_of_split {image : List UInt8} {before after : List Row} {r : Row}
    (h : rows 0 image = before ++ r :: after) : item? image r.address = some r.item := by
  obtain ⟨address, b, rest, here, item⟩ := head_of_rows (rows_of_split h)
  rw [address, Nat.zero_add, item?, here, ← item]

theorem drop_of_mem_rows {image : List UInt8} {r : Row} (h : r ∈ rows 0 image) :
    ∃ rest, image.drop r.address = r.item.bytes ++ rest := by
  obtain ⟨before, after, split⟩ := List.append_of_mem h
  have whole := flatMap_bytes_rows (0 + extent before) (image.drop (extent before))
  rw [rows_of_split split, List.flatMap_cons] at whole
  exact ⟨_, by rw [address_of_split split, Nat.zero_add, whole]⟩

theorem address_lt {a : Nat} {image : List UInt8} {before after : List Row} {q r : Row}
    (h : rows a image = before ++ r :: after) (earlier : q ∈ before) : q.address < r.address := by
  obtain ⟨front, back, rfl⟩ := List.append_of_mem earlier
  have left : rows a image = front ++ q :: (back ++ r :: after) := by simpa using h
  have positive := q.item.width_pos
  rw [address_of_split h, address_of_split left, extent_append]
  simp [extent]
  omega

theorem end_le {a : Nat} {image : List UInt8} {before after : List Row} {r : Row}
    (h : rows a image = before ++ r :: after) :
    r.address + r.item.width ≤ a + image.length := by
  have whole := extent_rows a image
  rw [h, extent_append] at whole
  rw [address_of_split h]
  simp only [extent, List.map_cons, List.sum_cons] at whole ⊢
  omega

end Disassembly
end Ls8
