import Ls8.Proofs.Assembly.TwoPass
import Ls8.Proofs.Disassembly.Shown

/-! A listing is source of the image it shows, unless an instruction in it names a register that
does not exist. -/
namespace Ls8

open Assembly (Cell Cause Line Readings)

def Item.Addressable (it : Item) : Prop := ∀ x ∈ it.registers, x < 8

instance (it : Item) : Decidable it.Addressable :=
  decidable_of_iff (it.registers.all (fun x => decide (x < 8)) = true) (by simp [Item.Addressable])

def Item.stray (it : Item) : Option UInt8 := it.registers.find? fun x => decide (8 ≤ x)

theorem Item.addressable_iff (it : Item) : it.Addressable ↔ it.stray = none := by
  simp [Addressable, stray, List.find?_eq_none]

namespace Disassembly

theorem readings_instruction (i : Instruction) :
    Assembly.readings (Item.instruction i).name (Item.instruction i).given =
      .ok (.byte i.opcode.byte) ::
        ((i.registers.map fun r => Assembly.register (Instruction.registerName r)) ++
          i.literals.map fun v => .ok (.byte v)) := by
  have code : (Item.instruction i).name = i.opcode.mnemonic := rfl
  have count : (Item.instruction i).given.length = i.opcode.operandCount := by
    have both := congrArg List.length i.operands_eq
    rw [i.length_operands] at both
    simp [Item.given, both]
  unfold Assembly.readings
  rw [code, if_neg (Assembly.mnemonic_ne_data _), Assembly.opcode?_mnemonic]
  simp only [if_pos count]
  congr 1
  cases i with
  | load r v =>
    simp [Item.given, Instruction.registers, Instruction.literals, Instruction.opcode,
      Assembly.operand, Assembly.value_decimal]
  | jump c r => cases c <;> rfl
  | binary op a b => cases op <;> rfl
  | _ => rfl

/-- How the assembler reads a row: only a register can be wrong. -/
theorem readings_source (r : Row) :
    r.source.readings =
      .ok (.byte r.item.head) ::
        ((r.item.registers.map fun x => Assembly.register (Instruction.registerName x)) ++
          r.item.literals.map fun v => .ok (.byte v)) := by
  have words : r.source.readings = Assembly.readings r.item.name r.item.given := rfl
  rw [words]
  cases r.item with
  | instruction i => exact readings_instruction i
  | data b =>
    have value := Assembly.value_bits b
    simpa [Assembly.readings, Item.name, Item.given, Item.head, Item.registers,
      Item.literals] using value

theorem length_readings_source (r : Row) : r.source.readings.length = r.item.width := by
  have lengths := congrArg List.length r.item.bytes_eq
  rw [r.item.length_bytes] at lengths
  simpa [readings_source] using lengths.symm

theorem findSome?_registers (rs : List UInt8) :
    (rs.map fun r => Assembly.register (Instruction.registerName r)).findSome?
        Assembly.complaint =
      (rs.find? fun x => decide (8 ≤ x)).map fun x => .badRegister (Instruction.registerName x) := by
  induction rs with
  | nil => rfl
  | cons r rs ih =>
    rw [List.map_cons, List.findSome?_cons, Assembly.register_registerName]
    by_cases small : r < 8
    · have inside : ¬ 8 ≤ r := UInt8.not_le.mpr small
      simp only [if_pos small, Assembly.complaint, ih, List.find?_cons, inside, decide_false]
    · have outside : 8 ≤ r := UInt8.not_lt.mp small
      simp only [if_neg small, Assembly.complaint, List.find?_cons, outside, decide_true,
        Option.map_some]

theorem complaint_source (r : Row) :
    r.source.readings.findSome? Assembly.complaint =
      r.item.stray.map fun x => .badRegister (Instruction.registerName x) := by
  have literal : (r.item.literals.map fun v => Except.ok (Cell.byte v)).findSome?
      Assembly.complaint = none := by
    simp [List.findSome?_eq_none_iff, Assembly.complaint]
  rw [readings_source, List.findSome?_cons, List.findSome?_append, findSome?_registers, literal,
    Option.or_none]
  rfl

theorem cells_source {r : Row} (ok : r.item.Addressable) :
    r.source.cells = r.item.bytes.map .byte := by
  have registers : (r.item.registers.map fun x =>
      Assembly.register (Instruction.registerName x)) = r.item.registers.map fun x =>
        .ok (.byte x) := by
    apply List.map_congr_left
    intro x member
    rw [Assembly.register_registerName, if_pos (ok x member)]
  rw [Line.cells, readings_source, registers, r.item.bytes_eq]
  simp [Except.toOption, List.filterMap_append, Function.comp_def]

theorem size_source (r : Row) : r.source.size = r.item.width := by
  have words : r.source.statement = some (r.item.name, r.item.given) := rfl
  rw [Line.size, words]
  cases r.item with
  | instruction i =>
    have code : (Item.instruction i).name = i.opcode.mnemonic := rfl
    simp only [code, if_neg (Assembly.mnemonic_ne_data _), Assembly.opcode?_mnemonic]
    rfl
  | data b => rfl

section

variable {image : List UInt8} {before after : List Row} {r : Row}

def above (before : List Row) : List Line := preamble ++ before.map Row.source

theorem total_above (before : List Row) : Assembly.total (above before) = extent before := by
  have sizes : before.map (Line.size ∘ Row.source) = before.map fun r => r.item.width :=
    List.map_congr_left fun r _ => size_source r
  simp [Assembly.total, above, preamble, Line.size, extent, sizes]

theorem labels_above (before : List Row) :
    Assembly.labels (above before) = before.map fun r => Text.address r.address := by
  have named : ∀ r : Row, Line.label r.source = some (Text.address r.address) := fun _ => rfl
  simp [Assembly.labels, above, preamble, List.filterMap_map, named]

/-- Nothing is wrong with a row in its place but a register that does not exist: its address is a
new label, and there is room. -/
theorem fault_source (fits : image.length ≤ 256)
    (split : rows 0 image = before ++ r :: after) :
    r.source.fault (Assembly.labels (above before)) (Assembly.total (above before)) =
      r.item.stray.map fun x => .badRegister (Instruction.registerName x) := by
  have place : r.address = extent before := by simpa using address_of_split split
  have ends := end_le split
  have wide := r.item.width_pos
  have new : Text.address r.address ∉ before.map fun q => Text.address q.address := by
    intro member
    obtain ⟨q, earlier, same⟩ := List.mem_map.mp member
    have below := address_lt split earlier
    rw [Text.address_injective same] at below
    exact Nat.lt_irrefl _ below
  have label : Assembly.misplaced (Assembly.labels (above before))
      (Assembly.total (above before)) (Text.address r.address) = none := by
    rw [labels_above, total_above]
    exact Assembly.misplaced_eq_none.mpr ⟨(Text.word_address _).1, by omega, new⟩
  have room : Assembly.total (above before) + r.source.readings.length ≤ 256 := by
    rw [total_above, length_readings_source]
    omega
  have named : r.source.label = some (Text.address r.address) := rfl
  rw [Line.fault, named, Option.bind_some, label, Option.none_or, Assembly.blocked_of_room room,
    complaint_source]

theorem faultless_preamble : Assembly.Faultless preamble := by
  rw [Assembly.faultless_iff_placed]
  refine ⟨?_, ?_, ?_, ?_, ?_⟩
  · intro line member
    rw [List.eq_of_mem_replicate member]
    trivial
  · simp [Assembly.labels, preamble]
  · simp [Assembly.labels, preamble]
  · intro label a place
    have member := Assembly.mem_labels.mpr ⟨a, place⟩
    simp [Assembly.labels, preamble] at member
  · simp [Assembly.total, preamble, Line.size]

theorem faultless_above {rest : List Row} (fits : image.length ≤ 256)
    (split : rows 0 image = before ++ rest) (ok : ∀ q ∈ before, q.item.Addressable) :
    Assembly.Faultless (above before) := by
  -- from the end, since what is wrong with a line depends on the lines before it
  induction before using List.reverseRecOn generalizing rest with
  | nil => exact faultless_preamble
  | append_singleton before r ih =>
    have whole : rows 0 image = before ++ r :: rest := by simpa using split
    have front : above (before ++ [r]) = above before ++ [r.source] := by simp [above]
    have exist := (Item.addressable_iff r.item).mp (ok r (by simp))
    rw [front, Assembly.faultless_append_one, fault_source fits whole, exist]
    exact ⟨ih whole fun q member => ok q (List.mem_append_left [r] member), rfl⟩

theorem firstOffends_above {x : UInt8} (fits : image.length ≤ 256)
    (split : rows 0 image = before ++ r :: after) (ok : ∀ q ∈ before, q.item.Addressable)
    (wrong : r.item.stray = some x) :
    Assembly.FirstOffends (above (rows 0 image)) (3 + (before.length + 1))
      (.badRegister (Instruction.registerName x)) := by
  have whole : above (rows 0 image) = above before ++ r.source :: after.map Row.source := by
    simp [above, split]
  have length : (above before).length = 3 + before.length := by
    simp [above, preamble]
    omega
  constructor
  · refine ⟨above before, r.source, after.map Row.source, whole, by omega, ?_⟩
    rw [fault_source fits split, wrong]
    rfl
  · intro n earlier cause offends
    rw [whole] at offends
    have inside := Assembly.offends_of_append offends (by omega)
    exact faultless_above fits split ok n cause inside

theorem first_stray {rs : List Row} (h : ¬ ∀ r ∈ rs, r.item.Addressable) :
    ∃ before r after, rs = before ++ r :: after ∧
      (∀ q ∈ before, q.item.Addressable) ∧ ¬ r.item.Addressable := by
  induction rs with
  | nil => simp at h
  | cons first rs ih =>
    by_cases ok : first.item.Addressable
    · have later : ¬ ∀ r ∈ rs, r.item.Addressable := fun all =>
        h (List.forall_mem_cons.mpr ⟨ok, all⟩)
      obtain ⟨before, r, after, rfl, good, bad⟩ := ih later
      exact ⟨first :: before, r, after, rfl, List.forall_mem_cons.mpr ⟨ok, good⟩, bad⟩
    · exact ⟨[], first, rs, rfl, by simp, ok⟩

theorem cells_above {rs : List Row} (ok : ∀ r ∈ rs, r.item.Addressable) :
    (above rs).flatMap Line.cells = (rs.flatMap fun r => r.item.bytes).map .byte := by
  have silent : preamble.flatMap Line.cells = [] := rfl
  rw [above, List.flatMap_append, silent, List.nil_append, List.map_flatMap, List.flatMap_map]
  induction rs with
  | nil => rfl
  | cons r rs ih =>
    have first := cells_source (ok r List.mem_cons_self)
    have rest := ih fun q member => ok q (List.mem_cons_of_mem r member)
    rw [List.flatMap_cons, List.flatMap_cons, first, rest]

theorem assemble_of_addressable (fits : image.length ≤ 256)
    (ok : ∀ r ∈ rows 0 image, r.item.Addressable) : assemble (listing image) = .ok image := by
  have lines : Assembly.sourceLines (listing image) = above (rows 0 image) :=
    sourceLines_listing image
  have cells : (above (rows 0 image)).flatMap Line.cells = image.map .byte := by
    rw [cells_above ok, flatMap_bytes_rows]
  have shown : Assembly.Image (above (rows 0 image)) image := by
    rw [Assembly.Image, cells, List.forall₂_map_left_iff, List.forall₂_same]
    exact fun b _ => rfl
  have whole : rows 0 image = rows 0 image ++ [] := (List.append_nil _).symm
  have clean : Assembly.Faultless (above (rows 0 image)) := faultless_above fits whole ok
  have accepted : Assembly.Acceptable (above (rows 0 image)) := by
    refine ⟨(Assembly.faultless_iff_placed _).mp clean, fun n name used => ?_⟩
    have member := Assembly.label_mem_cells used
    rw [cells] at member
    obtain ⟨b, -, same⟩ := List.mem_map.mp member
    cases same
  rw [← lines] at accepted shown
  obtain ⟨program, assembled⟩ := Assembly.ok_of_acceptable accepted
  have image' := (Assembly.acceptable_of_ok assembled).2
  rw [assembled, Assembly.image_unique accepted.toPlaced image' shown]

end

/-- A listing is source of the image it shows if and only if the registers in it exist; else the
assembler stops at the first row that names one that does not. -/
theorem assemble_listing (image : List UInt8) (fits : image.length ≤ 256) :
    (assemble (listing image) = .ok image ↔ ∀ r ∈ rows 0 image, r.item.Addressable) ∧
    ((¬ ∀ r ∈ rows 0 image, r.item.Addressable) →
      ∃ before r after x, rows 0 image = before ++ r :: after ∧
        (∀ q ∈ before, q.item.Addressable) ∧ r.item.stray = some x ∧
        assemble (listing image) =
          .error ⟨3 + (before.length + 1), .badRegister (Instruction.registerName x)⟩) := by
  have stops : (¬ ∀ r ∈ rows 0 image, r.item.Addressable) →
      ∃ before r after x, rows 0 image = before ++ r :: after ∧
        (∀ q ∈ before, q.item.Addressable) ∧ r.item.stray = some x ∧
        assemble (listing image) =
          .error ⟨3 + (before.length + 1), .badRegister (Instruction.registerName x)⟩ := by
    intro some_bad
    obtain ⟨before, r, after, split, ok, bad⟩ := first_stray some_bad
    obtain ⟨x, wrong⟩ := Option.ne_none_iff_exists'.mp (mt (Item.addressable_iff _).mpr bad)
    have first := firstOffends_above fits split ok wrong
    rw [above, ← sourceLines_listing] at first
    exact ⟨before, r, after, x, split, ok, wrong, Assembly.error_of_firstOffends first⟩
  refine ⟨⟨?_, assemble_of_addressable fits⟩, stops⟩
  intro assembled
  by_contra some_bad
  obtain ⟨before, r, after, x, -, -, -, stopped⟩ := stops some_bad
  rw [assembled] at stopped
  cases stopped

theorem assemble_listing_print :
    ([0x82, 0, 8, 0x47, 0, 1] : List UInt8).length ≤ 256 ∧
      assemble (listing [0x82, 0, 8, 0x47, 0, 1]) = .ok [0x82, 0, 8, 0x47, 0, 1] := by
  refine ⟨by decide, (assemble_listing _ (by decide)).1.mpr ?_⟩
  have load : Item.ofBytes 0x82 [0, 8, 0x47, 0, 1] = .instruction (.load 0 8) := by decide
  have print : Item.ofBytes 0x47 [0, 1] = .instruction (.print 0) := by decide
  have halt : Item.ofBytes 1 [] = .instruction .halt := by decide
  have wide : (Item.instruction (.load 0 8)).width = 3 := by decide
  have middle : (Item.instruction (.print 0)).width = 2 := by decide
  have narrow : (Item.instruction .halt).width = 1 := by decide
  have shown : rows 0 [0x82, 0, 8, 0x47, 0, 1] =
      [⟨0, .instruction (.load 0 8), [0x82, 0, 8]⟩, ⟨3, .instruction (.print 0), [0x47, 0]⟩,
        ⟨5, .instruction .halt, [1]⟩] := by
    simp [rows, load, print, halt, wide, middle, narrow]
  rw [shown]
  simp only [List.forall_mem_cons]
  decide

end Disassembly
end Ls8
