import Ls8.Proofs.Disassembly.Fetched

/-! The sweep over an image, from address to address. Each byte stands in one row, no row needs
bytes past the end of the image, and code that was encoded is cut into its instructions again. -/
namespace Ls8

theorem Item.width_ofBytes_le (b : UInt8) (rest : List UInt8) :
    (ofBytes b rest).width ≤ rest.length + 1 := by
  have count := congrArg List.length (bytes_ofBytes b rest)
  rw [length_bytes, List.length_cons, List.length_take] at count
  omega

namespace Disassembly

def slice? (image : List UInt8) (a stop : Nat) : Option (List UInt8) :=
  if a ≤ stop ∧ stop ≤ image.length then some ((image.drop a).take (stop - a)) else none

structure Columns where
  address : Nat
  text : List Char
  raw : List UInt8
  deriving DecidableEq

def Row.columns (r : Row) : Columns := ⟨r.address, r.item.text, r.raw⟩

theorem textAt_append (front : List UInt8) (b : UInt8) (rest : List UInt8) :
    textAt (front ++ b :: rest) front.length =
      ((Item.ofBytes b rest).text, (Item.ofBytes b rest).width) := by
  rw [textAt, item?, List.drop_left]

/-- The rows from an address on, one by one; none of them if the bytes of one are not all there. -/
def sweep (image : List UInt8) (a : Nat) : Option (List Columns) :=
  if _ : a < image.length then do
    let shown := textAt image a
    let raw ← slice? image a (a + shown.2)
    let later ← sweep image (a + shown.2)
    return ⟨a, shown.1, raw⟩ :: later
  else some []
  termination_by image.length - a
  decreasing_by
    have := width_textAt_pos ‹a < image.length›
    omega

def rawColumn (line : List Char) : List (List Char) :=
  match Text.cut (· == ';') line with
  | none => []
  | some (_, column) => Text.pieces (· == ' ') (Text.trim column)

theorem slice?_append (front part back : List UInt8) :
    slice? (front ++ (part ++ back)) front.length (front.length + part.length) = some part := by
  have inside : front.length ≤ front.length + part.length ∧
      front.length + part.length ≤ (front ++ (part ++ back)).length := by
    simp only [List.length_append]
    omega
  rw [slice?, if_pos inside, List.drop_left, Nat.add_sub_cancel_left, List.take_left]

theorem sweep_append (front rest : List UInt8) :
    sweep (front ++ rest) front.length = some ((rows front.length rest).map Row.columns) := by
  generalize address : front.length = a
  fun_induction rows a rest generalizing front with
  | case1 a => simp [sweep, ← address]
  | case2 a b rest it ih =>
    subst address
    have enough : it.width - 1 ≤ rest.length := Nat.sub_le_of_le_add (Item.width_ofBytes_le b rest)
    have positive := it.width_pos
    -- The row takes its bytes from the front of what is left.
    let raw := b :: rest.take (it.width - 1)
    have width : raw.length = it.width := by
      simp only [raw, List.length_cons, List.length_take]
      omega
    have whole : b :: rest = raw ++ rest.drop (it.width - 1) := by
      simp [raw]
    have inside : front.length < (front ++ b :: rest).length := by simp
    have cut : slice? (front ++ b :: rest) front.length (front.length + it.width) = some raw := by
      rw [whole, ← width]
      exact slice?_append front raw _
    have later := ih (front ++ raw) (by rw [List.length_append, width])
    rw [List.append_assoc, ← whole] at later
    have shown : textAt (front ++ b :: rest) front.length = (it.text, it.width) :=
      textAt_append front b rest
    rw [sweep, dif_pos inside]
    simp only [shown, cut, later, Option.bind_eq_bind, Option.bind_some, Option.pure_def]
    rfl

theorem rawColumn_shown {r : Row} (some_byte : r.raw ≠ []) :
    rawColumn r.shown = r.raw.map Text.bits := by
  obtain ⟨b, more, e⟩ := List.exists_cons_of_ne_nil some_byte
  have words : ∀ s ∈ Text.bits b :: more.map Text.bits, s ≠ [] ∧ Text.Word s := by
    intro s member
    obtain ⟨c, -, rfl⟩ := List.mem_map.mp (List.map_cons ▸ member : s ∈ (b :: more).map Text.bits)
    exact Text.word_bits c
  obtain ⟨some_char, bare⟩ := Text.bare_join [' '] words
  have free : ∀ c ∈ r.front ++ r.pad, (c == ';') = false :=
    fun c member => beq_false_of_ne (unmarked_front r c member).1
  have trimmed := Text.trim_padded [' '] [] Text.blank_space (by simp) bare some_char
  rw [List.append_nil, List.singleton_append] at trimmed
  rw [rawColumn, shown_eq, Text.cut_append_mark _ free rfl, e, List.map_cons]
  simp only [trimmed, Text.pieces_join ' ' rfl fun s member => (words s member).2]

theorem rawColumns_rows (image : List UInt8) :
    ((rows 0 image).map Row.shown).flatMap rawColumn = image.map Text.bits := by
  have each : ∀ r ∈ rows 0 image, rawColumn r.shown = r.raw.map Text.bits := by
    intro r member
    apply rawColumn_shown
    rw [raw_of_mem_rows member, Item.bytes_eq]
    exact List.cons_ne_nil _ _
  rw [List.flatMap_map, List.flatMap_def, List.map_congr_left each, ← List.flatMap_def,
    ← List.map_flatMap, flatMap_raw_rows]

theorem items_encode (a : Nat) (code : List Instruction) :
    (rows a (code.flatMap Instruction.encode)).map Row.item = code.map Item.instruction := by
  induction code generalizing a with
  | nil => simp [rows]
  | cons i code ih =>
    rw [List.flatMap_cons, rows_encode, List.map_cons, List.map_cons, ih]

theorem encode_injective :
    Function.Injective fun code : List Instruction => code.flatMap Instruction.encode := by
  intro code code' same
  have items : code.map Item.instruction = code'.map Item.instruction := by
    rw [← items_encode 0 code, ← items_encode 0 code']
    exact congrArg (fun image => (rows 0 image).map Row.item) same
  exact List.map_injective_iff.mpr (fun i j => Item.instruction.inj) items

/-- The sweep comes to an end without a slice out of range, and its rows are those of the listing:
their bytes are the image's, each row stands where the ones before it end and shows what is there,
and a byte of data is a row by itself. From encoded code it makes the instructions' own texts and
no data, so that no other code has the same bytes. -/
theorem sweep_covers :
    (∀ image : List UInt8,
      let rs := rows 0 image
      sweep image 0 = some (rs.map Row.columns) ∧
      Text.lines (listing image) = titles ++ rs.map Row.shown ∧
      rs.flatMap Row.raw = image ∧
      (rs.map Row.shown).flatMap rawColumn = image.map Text.bits ∧
      ∀ before r after, rs = before ++ r :: after →
        r.address = (before.map fun q => q.item.width).sum ∧
        textAt image r.address = (r.item.text, r.item.width) ∧
        r.raw.length = r.item.width ∧
        ∀ b, r.item.text = "DB 0b".toList ++ Text.bits b → r.raw = [b]) ∧
    (∀ code : List Instruction,
      let rs := rows 0 (code.flatMap Instruction.encode)
      rs.map (fun r => r.item.text) = code.map Instruction.text ∧
      ∀ r ∈ rs, ∀ b, r.item.text ≠ "DB 0b".toList ++ Text.bits b) ∧
    Function.Injective fun code : List Instruction => code.flatMap Instruction.encode := by
  refine ⟨fun image => ⟨sweep_append [] image, lines_listing image, flatMap_raw_rows 0 image,
    rawColumns_rows image, ?_⟩, fun code => ⟨?_, ?_⟩, encode_injective⟩
  · intro before r after split
    have raw : r.raw = r.item.bytes := raw_of_mem_rows (split ▸ List.mem_append_cons_self)
    refine ⟨?_, textAt_eq_some.mpr (item?_of_split split), ?_, ?_⟩
    · rw [address_of_split split, Nat.zero_add]
      rfl
    · rw [raw, Item.length_bytes]
    · intro b text
      have item : r.item = .data b := Item.text_injective text
      rw [raw, item]
      rfl
  · have texts := congrArg (List.map Item.text) (items_encode 0 code)
    rwa [List.map_map, List.map_map] at texts
  · intro r member b text
    have item : r.item = .data b := Item.text_injective text
    have shown : r.item ∈ code.map Item.instruction := by
      rw [← items_encode 0 code]
      exact List.mem_map_of_mem member
    obtain ⟨i, -, same⟩ := List.mem_map.mp shown
    rw [item] at same
    cases same

end Disassembly
end Ls8
