import Ls8.Proofs.Assembly.Grammar
import Ls8.Proofs.Assembly.Meaning
import Ls8.Proofs.Assembly.TwoPass

/-! A source as a whole, by what its lines mean: where its labels are, which line is the first wrong
one, and which bytes it stands for. The assembler does what this says of the lines that the grammar
finds in the source. -/
namespace Ls8.Assembly

open Text (Capital)

/-- The address of a label is the size of all lines before its own. -/
def Address (ls : List Line) (label : List Char) (a : Nat) : Prop :=
  ∃ done line rest sizes, ls = done ++ line :: rest ∧ line.label = some label ∧
    List.Forall₂ Sizes done sizes ∧ a = sizes.sum

/-- Every line is well formed, and gives its part of the bytes; the labels differ and have a byte to
stand for, and all bytes have room. -/
structure Sound (ls : List Line) (cells : List (List Cell)) : Prop where
  formed : List.Forall₂ Yields ls cells
  named : ∀ label ∈ labels ls, label ≠ []
  distinct : (labels ls).Nodup
  reachable : ∀ label a, Address ls label a → a < 256
  fits : cells.flatten.length ≤ 256

def Resolves (ls : List Line) : Cell → UInt8 → Prop
  | .byte b, v => v = b
  | .label name, v => Address ls name v.toNat

def WrongAt (ls : List Line) (n : Nat) (cause : Cause) : Prop :=
  ∃ done line rest sizes, ls = done ++ line :: rest ∧ n = done.length + 1 ∧
    List.Forall₂ Sizes done sizes ∧ Wrong (labels done) sizes.sum line cause

def FirstWrong (ls : List Line) (n : Nat) (cause : Cause) : Prop :=
  WrongAt ls n cause ∧ ∀ n' < n, ∀ cause', ¬ WrongAt ls n' cause'

/-- The first use of a label that is nowhere defined. -/
def FirstMissing (ls : List Line) (n : Nat) (name : List Char) : Prop :=
  ∃ done line rest cells front more, ls = done ++ line :: rest ∧ n = done.length + 1 ∧
    List.Forall₂ Yields done cells ∧ Yields line (front ++ .label name :: more) ∧
    name ∉ labels ls ∧ ∀ used, .label used ∈ cells.flatten ++ front → used ∈ labels ls

def Capitals (ls : List Line) : Prop :=
  ∀ line ∈ ls, ∀ words, line.statement = some words → Capital words.1

theorem capital_of_phrase {s : List Char} {statement : Option (List Char × List (List Char))}
    (h : Phrase s statement) : ∀ words, statement = some words → Capital words.1 := by
  intro words has
  cases h <;> cases has <;> exact Text.capital_upper _

theorem capitals_sourceLines (source : List Char) : Capitals (sourceLines source) := by
  intro line member
  obtain ⟨s, -, read⟩ := List.mem_map.mp member
  cases reads_iff.mpr read with
  | plain cut trimmed free phrase => exact capital_of_phrase phrase
  | labelled cut trimmed free called after phrase => exact capital_of_phrase phrase

section

variable {line : Line} {cs : List Cell} {ls : List Line} {cells : List (List Cell)}

theorem length_of_filled {kinds : List Slot} {given : List (List Char)}
    (h : Filled kinds given cs) : cs.length = kinds.length := by
  induction h with
  | nil => rfl
  | cons h more ih => rw [List.length_cons, List.length_cons, ih]

theorem sizes_of_yields (h : Yields line cs) : Sizes line cs.length := by
  cases h with
  | nothing => exact .nothing
  | data h => exact .data
  | code called h =>
    rw [List.length_cons, length_of_filled h, Nat.add_comm]
    exact .code called

theorem size_of_sizes {n : Nat} (h : Sizes line n) : line.size = n := by
  cases h with
  | nothing => rfl
  | data => rfl
  | code called =>
    simp only [Line.size, if_neg (ne_data_of_names called), opcode?_of_names called, length_slots]

theorem total_of_sizes {sizes : List Nat} (h : List.Forall₂ Sizes ls sizes) :
    total ls = sizes.sum := by
  induction h with
  | nil => rfl
  | cons first rest ih =>
    rw [List.sum_cons, ← ih, ← size_of_sizes first]
    rfl

theorem yields_iff_cells (capital : ∀ words, line.statement = some words → Capital words.1) :
    Yields line cs ↔ line.Formed ∧ line.cells = cs := by
  rw [yields_iff capital]
  constructor
  · intro read
    rw [Line.formed_iff, Line.cells, read]
    refine ⟨by simp, ?_⟩
    rw [List.filterMap_map]
    exact List.filterMap_some
  · rintro ⟨formed, rfl⟩
    exact Line.readings_of_formed formed

theorem forall_yields_iff (capitals : Capitals ls) :
    List.Forall₂ Yields ls cells ↔ (∀ line ∈ ls, line.Formed) ∧ ls.map Line.cells = cells := by
  induction ls generalizing cells with
  | nil => simp [eq_comm]
  | cons line ls ih =>
    obtain ⟨capital, rest⟩ := List.forall_mem_cons.mp capitals
    simp only [List.forall₂_cons_left_iff, yields_iff_cells capital, ih rest, List.forall_mem_cons,
      List.map_cons]
    constructor
    · rintro ⟨_, _, ⟨formed, rfl⟩, ⟨more, rfl⟩, rfl⟩
      exact ⟨⟨formed, more⟩, rfl⟩
    · rintro ⟨⟨formed, more⟩, rfl⟩
      exact ⟨_, _, ⟨formed, rfl⟩, ⟨more, rfl⟩, rfl⟩

theorem sizes_of_formed (capitals : Capitals ls) (formed : ∀ line ∈ ls, line.Formed) :
    ∃ sizes, List.Forall₂ Sizes ls sizes ∧ sizes.sum = total ls := by
  have yields := (forall_yields_iff capitals).mpr ⟨formed, rfl⟩
  have sizes : List.Forall₂ Sizes ls ((ls.map Line.cells).map List.length) :=
    List.forall₂_map_right_iff.mpr (yields.imp fun _ _ => sizes_of_yields)
  exact ⟨_, sizes, (total_of_sizes sizes).symm⟩

theorem defines_of_address {label : List Char} {a : Nat} (h : Address ls label a) :
    Defines ls label a := by
  obtain ⟨done, line, rest, sizes, split, has, size, rfl⟩ := h
  exact ⟨done, line, rest, split, has, (total_of_sizes size).symm⟩

theorem capitals_left {done rest : List Line} (capitals : Capitals (done ++ rest)) :
    Capitals done :=
  fun line member => capitals line (List.mem_append_left _ member)

theorem address_iff {label : List Char} {a : Nat} (capitals : Capitals ls)
    (formed : ∀ line ∈ ls, line.Formed) : Address ls label a ↔ Defines ls label a := by
  refine ⟨defines_of_address, ?_⟩
  rintro ⟨done, line, rest, rfl, has, rfl⟩
  obtain ⟨sizes, size, total⟩ := sizes_of_formed (capitals_left capitals)
    fun l member => formed l (List.mem_append_left _ member)
  exact ⟨done, line, rest, sizes, rfl, has, size, total.symm⟩

theorem resolves_iff {c : Cell} {v : UInt8} (capitals : Capitals ls)
    (formed : ∀ line ∈ ls, line.Formed) : Resolves ls c v ↔ Stands ls c v := by
  cases c with
  | byte b => exact Iff.rfl
  | label name => exact address_iff capitals formed

theorem sound_iff (capitals : Capitals ls) :
    Sound ls cells ↔ Placed ls ∧ ls.map Line.cells = cells := by
  constructor
  · intro h
    obtain ⟨formed, same⟩ := (forall_yields_iff capitals).mp h.formed
    refine ⟨⟨formed, h.named, h.distinct, fun label a place => ?_, ?_⟩, same⟩
    · exact h.reachable label a ((address_iff capitals formed).mpr place)
    · have fits := h.fits
      rwa [← same, ← List.flatMap_def, length_flatMap_cells formed] at fits
  · rintro ⟨h, rfl⟩
    refine ⟨(forall_yields_iff capitals).mpr ⟨h.formed, rfl⟩, h.named, h.distinct,
      fun label a place => h.reachable label a (defines_of_address place), ?_⟩
    rw [← List.flatMap_def, length_flatMap_cells h.formed]
    exact h.fits

theorem faultless_iff_sound (capitals : Capitals ls) : Faultless ls ↔ ∃ cells, Sound ls cells := by
  simp only [faultless_iff_placed, sound_iff capitals, exists_and_left, exists_eq', and_true]

end

section

variable {ls : List Line} {n : Nat} {cause : Cause}

theorem offends_of_wrongAt (capitals : Capitals ls) (h : WrongAt ls n cause) :
    Offends ls n cause := by
  obtain ⟨done, line, rest, sizes, rfl, place, size, wrong⟩ := h
  have capital := capitals line (List.mem_append_right _ List.mem_cons_self)
  refine ⟨done, line, rest, rfl, place, ?_⟩
  rw [total_of_sizes size]
  exact (wrong_iff capital).mp wrong

theorem exists_firstOffends (h : Offends ls n cause) :
    ∃ n' ≤ n, ∃ cause', FirstOffends ls n' cause' := by
  classical
  have some_line : ∃ n, ∃ cause, Offends ls n cause := ⟨n, cause, h⟩
  obtain ⟨cause', first⟩ := Nat.find_spec some_line
  exact ⟨Nat.find some_line, Nat.find_min' some_line ⟨cause, h⟩, cause', first,
    fun n' before cause'' wrong => Nat.find_min some_line before ⟨cause'', wrong⟩⟩

theorem wrongAt_of_firstOffends (capitals : Capitals ls) (h : FirstOffends ls n cause) :
    WrongAt ls n cause := by
  obtain ⟨⟨done, line, rest, rfl, place, wrong⟩, first⟩ := h
  have clean : Faultless done := by
    intro n' cause' offends
    have inside : n' < n := by
      obtain ⟨done', line', rest', split, place', -⟩ := offends
      rw [place, place', split, List.length_append, List.length_cons]
      omega
    exact first n' inside cause' (offends_append _ offends)
  obtain ⟨sizes, size, total⟩ := sizes_of_formed (capitals_left capitals)
    ((faultless_iff_placed done).mp clean).formed
  have capital := capitals line (List.mem_append_right _ List.mem_cons_self)
  refine ⟨done, line, rest, sizes, rfl, place, size, (wrong_iff capital).mpr ?_⟩
  rwa [total]

theorem firstWrong_iff (capitals : Capitals ls) :
    FirstWrong ls n cause ↔ FirstOffends ls n cause := by
  constructor
  · rintro ⟨wrong, first⟩
    refine ⟨offends_of_wrongAt capitals wrong, fun n' before cause' offends => ?_⟩
    obtain ⟨m, le, cause'', earliest⟩ := exists_firstOffends offends
    exact first m (Nat.lt_of_le_of_lt le before) cause''
      (wrongAt_of_firstOffends capitals earliest)
  · intro h
    refine ⟨wrongAt_of_firstOffends capitals h, fun n' before cause' wrong => ?_⟩
    exact h.2 n' before cause' (offends_of_wrongAt capitals wrong)

end

section

variable {ls : List Line} {n k : Nat} {name : List Char} {known : List (List Char)}

theorem numbered_cons (line : Line) (ls : List Line) :
    numbered k (line :: ls) = (line.cells.map fun c => (k, c)) ++ numbered (k + 1) ls := rfl

/-- The numbered cells before a cell `c` of line `n`, and after it. -/
def Around (k : Nat) (ls : List Line) (n : Nat) (c : Cell) (front more : List (Nat × Cell)) :
    Prop :=
  ∃ done line rest left right, ls = done ++ line :: rest ∧ n = k + done.length ∧
    line.cells = left ++ c :: right ∧ front = numbered k done ++ left.map (fun c => (n, c)) ∧
    more = right.map (fun c => (n, c)) ++ numbered (n + 1) rest

section

variable {c : Cell} {front more : List (Nat × Cell)}

theorem Around.later {line : Line} (h : Around (k + 1) ls n c front more) :
    Around k (line :: ls) n c ((line.cells.map fun c => (k, c)) ++ front) more := by
  obtain ⟨done, line', rest, left, right, rfl, rfl, cells, rfl, rfl⟩ := h
  refine ⟨line :: done, line', rest, left, right, rfl, ?_, cells, ?_, rfl⟩
  · rw [List.length_cons]
    omega
  · rw [numbered_cons, List.append_assoc]

theorem around_of_split (h : numbered k ls = front ++ (n, c) :: more) :
    Around k ls n c front more := by
  induction ls generalizing k front with
  | nil => simp [numbered] at h
  | cons line ls ih =>
    rw [numbered_cons] at h
    rcases List.append_eq_append_iff.mp h with ⟨rest, rfl, there⟩ | ⟨rest, here, there⟩
    · exact (ih there).later
    · cases rest with
      | nil =>
        rw [List.append_nil] at here
        have begins : numbered (k + 1) ls = [] ++ (n, c) :: more := there.symm
        have later : Around k (line :: ls) n c _ more := (ih begins).later
        rwa [List.append_nil, here] at later
      | cons first rest =>
        obtain ⟨rfl, rfl⟩ := List.cons.inj there
        obtain ⟨left, right, cells, rfl, same⟩ := List.map_eq_append_iff.mp here
        obtain ⟨c', right, rfl, same, rfl⟩ := List.map_eq_cons_iff.mp same
        cases same
        exact ⟨[], line, ls, left, right, rfl, rfl, cells, rfl, rfl⟩

theorem split_numbered :
    numbered k ls = front ++ (n, c) :: more ↔ Around k ls n c front more := by
  refine ⟨around_of_split, ?_⟩
  rintro ⟨done, line, rest, left, right, rfl, rfl, cells, rfl, rfl⟩
  rw [numbered_append, numbered_cons, cells]
  simp

end

theorem mem_uses {cells : List (Nat × Cell)} :
    (n, name) ∈ uses cells ↔ (n, .label name) ∈ cells := by
  constructor
  · intro member
    obtain ⟨⟨m, c⟩, inside, used⟩ := List.mem_filterMap.mp member
    cases c with
    | byte b => cases used
    | label name =>
      cases used
      exact inside
  · intro inside
    exact List.mem_filterMap.mpr ⟨_, inside, rfl⟩

theorem find_uses {cells : List (Nat × Cell)} :
    (uses cells).find? (fun r => decide (r.2 ∉ known)) = some (n, name) ↔
      ∃ front more, cells = front ++ (n, .label name) :: more ∧ name ∉ known ∧
        ∀ m used, (m, .label used) ∈ front → used ∈ known := by
  rw [List.find?_eq_some_iff_append]
  constructor
  · rintro ⟨missing, earlier, later, split, defined⟩
    obtain ⟨front, rest, rfl, rfl, tail⟩ := List.filterMap_eq_append_iff.mp split
    obtain ⟨gap, ⟨m, c⟩, more, rfl, bytes, use, -⟩ := List.filterMap_eq_cons_iff.mp tail
    cases c with
    | byte b => cases use
    | label name =>
      cases use
      refine ⟨front ++ gap, more, by simp, by simpa using missing, fun m used member => ?_⟩
      rcases List.mem_append.mp member with member | member
      · simpa using defined _ (mem_uses.mpr member)
      · cases bytes _ member
  · rintro ⟨front, more, rfl, missing, defined⟩
    refine ⟨by simpa using missing, uses front, uses more, by simp [uses], ?_⟩
    rintro ⟨m, used⟩ member
    simpa using defined m used (mem_uses.mp member)

theorem firstMissing_iff (capitals : Capitals ls) (formed : ∀ line ∈ ls, line.Formed) :
    FirstMissing ls n name ↔ FirstUndefined ls n name := by
  have line_yields {line : Line} (member : line ∈ ls) {cs : List Cell} :
      Yields line cs ↔ line.cells = cs := by
    rw [yields_iff_cells (capitals line member)]
    exact and_iff_right (formed line member)
  rw [FirstUndefined, references_eq_uses, find_uses]
  simp only [split_numbered]
  constructor
  · rintro ⟨done, line, rest, cells, left, right, rfl, rfl, yields, here, missing, defined⟩
    obtain ⟨-, rfl⟩ := (forall_yields_iff (capitals_left capitals)).mp yields
    have cells := (line_yields (List.mem_append_right _ List.mem_cons_self)).mp here
    refine ⟨_, _, ⟨done, line, rest, left, right, rfl, Nat.add_comm _ _, cells, rfl, rfl⟩, missing,
      fun m used member => defined used ?_⟩
    have inside := List.mem_map_of_mem (f := Prod.snd) member
    rw [List.map_append, map_snd_numbered, List.map_map] at inside
    simpa [List.flatMap_def, Function.comp_def] using inside
  · rintro ⟨_, _, ⟨done, line, rest, left, right, rfl, rfl, cells, rfl, rfl⟩, missing, defined⟩
    have yields := (forall_yields_iff (capitals_left capitals)).mpr
      ⟨fun l member => formed l (List.mem_append_left _ member), rfl⟩
    have here := (line_yields (List.mem_append_right _ List.mem_cons_self)).mpr cells
    refine ⟨done, line, rest, _, left, right, rfl, Nat.add_comm _ _, yields, here, missing,
      fun used member => ?_⟩
    rcases List.mem_append.mp member with member | member
    · rw [← List.flatMap_def, ← map_snd_numbered 1] at member
      obtain ⟨⟨m, c⟩, inside, rfl⟩ := List.mem_map.mp member
      exact defined m used (List.mem_append_left _ inside)
    · exact defined _ used (List.mem_append_right _ (List.mem_map_of_mem member))

end

theorem sound_iff_not_wrongAt {ls : List Line} (capitals : Capitals ls) :
    (∃ cells, Sound ls cells) ↔ ∀ n cause, ¬ WrongAt ls n cause := by
  rw [← faultless_iff_sound capitals]
  constructor
  · intro clean n cause wrong
    exact clean n cause (offends_of_wrongAt capitals wrong)
  · intro right n cause offends
    obtain ⟨n', -, cause', first⟩ := exists_firstOffends offends
    exact right n' cause' (wrongAt_of_firstOffends capitals first)

section

variable {source : List Char}

theorem image_iff {ls : List Line} {program : List UInt8} (capitals : Capitals ls)
    (formed : ∀ line ∈ ls, line.Formed) :
    List.Forall₂ (Resolves ls) (ls.map Line.cells).flatten program ↔ Image ls program := by
  have same : Resolves ls = Stands ls := by
    funext c v
    exact propext (resolves_iff capitals formed)
  rw [same, ← List.flatMap_def, Image]

theorem assemble_eq_ok {program : List UInt8} :
    let ls := sourceLines source
    assemble source = .ok program ↔
      ∃ cells, Sound ls cells ∧ List.Forall₂ (Resolves ls) cells.flatten program := by
  intro ls
  have capitals := capitals_sourceLines source
  constructor
  · intro h
    obtain ⟨ok, image⟩ := acceptable_of_ok h
    exact ⟨_, (sound_iff capitals).mpr ⟨ok.toPlaced, rfl⟩, (image_iff capitals ok.formed).mpr image⟩
  · rintro ⟨cells, sound, resolves⟩
    obtain ⟨placed, rfl⟩ := (sound_iff capitals).mp sound
    exact assemble_of_image placed ((image_iff capitals placed.formed).mp resolves)

theorem exists_program :
    let ls := sourceLines source
    (∃ program, assemble source = .ok program) ↔
      ∃ cells, Sound ls cells ∧ ∀ name, .label name ∈ cells.flatten → name ∈ labels ls := by
  intro ls
  have capitals := capitals_sourceLines source
  constructor
  · rintro ⟨program, h⟩
    obtain ⟨ok, image⟩ := acceptable_of_ok h
    refine ⟨_, (sound_iff capitals).mpr ⟨ok.toPlaced, rfl⟩, fun name used => ?_⟩
    rw [← List.flatMap_def] at used
    obtain ⟨i, at_place⟩ := List.getElem?_of_mem used
    obtain ⟨b, -, stands⟩ := stands_of_image image at_place
    exact mem_labels.mpr ⟨_, stands⟩
  · rintro ⟨cells, sound, defined⟩
    obtain ⟨placed, rfl⟩ := (sound_iff capitals).mp sound
    rw [← List.flatMap_def] at defined
    exact ok_of_acceptable ⟨placed, fun n name used => defined name (label_mem_cells used)⟩

theorem assemble_eq_error {n : Nat} {cause : Cause} :
    let ls := sourceLines source
    assemble source = .error ⟨n, cause⟩ ↔
      FirstWrong ls n cause ∨ ((∃ cells, Sound ls cells) ∧
        ∃ name, cause = .undefinedLabel name ∧ FirstMissing ls n name) := by
  intro ls
  have capitals := capitals_sourceLines source
  have missing (clean : Faultless ls) (name : List Char) :
      FirstMissing ls n name ↔ FirstUndefined ls n name :=
    firstMissing_iff capitals ((faultless_iff_placed ls).mp clean).formed
  rw [firstWrong_iff capitals, ← faultless_iff_sound capitals]
  constructor
  · intro h
    rcases causes_of_error h with first | ⟨clean, name, rfl, first⟩
    · exact .inl first
    · exact .inr ⟨clean, name, rfl, (missing clean name).mpr first⟩
  · rintro (first | ⟨clean, name, rfl, first⟩)
    · exact error_of_firstOffends first
    · exact error_of_firstUndefined clean ((missing clean name).mp first)

theorem sound_of_undefined {n : Nat} {name : List Char}
    (h : assemble source = .error ⟨n, .undefinedLabel name⟩) :
    ∃ cells, Sound (sourceLines source) cells := by
  rw [← faultless_iff_sound (capitals_sourceLines source)]
  rcases causes_of_error h with ⟨⟨done, line, rest, -, -, wrong⟩, -⟩ | ⟨clean, -⟩
  · exact absurd wrong (fault_ne_undefined line _ _ name)
  · exact clean

end

/-- Assembling is the two-pass assembler that the lines of a source describe. Every source is that
of some lines, and only of these. It gives their bytes, with the address of a label wherever the
label is used, if all lines are right and every label in use has a line. Else it names the first
wrong line; and only if no line is wrong, the first use of a label that is nowhere defined. -/
theorem assemble_two_pass (source : List Char) :
    ∃ ls, (∀ ls', Written source ls' ↔ ls' = ls) ∧
      (∀ program, assemble source = .ok program ↔
        ∃ cells, Sound ls cells ∧ List.Forall₂ (Resolves ls) cells.flatten program) ∧
      ((∃ program, assemble source = .ok program) ↔
        ∃ cells, Sound ls cells ∧ ∀ name, .label name ∈ cells.flatten → name ∈ labels ls) ∧
      (∀ n cause, assemble source = .error ⟨n, cause⟩ ↔
        FirstWrong ls n cause ∨ ((∃ cells, Sound ls cells) ∧
          ∃ name, cause = .undefinedLabel name ∧ FirstMissing ls n name)) ∧
      ((∃ cells, Sound ls cells) ↔ ∀ n cause, ¬ WrongAt ls n cause) ∧
      ∀ n name, assemble source = .error ⟨n, .undefinedLabel name⟩ → ∃ cells, Sound ls cells :=
  ⟨sourceLines source, fun _ => written_iff, fun _ => assemble_eq_ok, exists_program,
    fun _ _ => assemble_eq_error, sound_iff_not_wrongAt (capitals_sourceLines source),
    fun _ _ => sound_of_undefined⟩

/-- `DATA` is used before its line, and `START` after its own, in an operand and as data. -/
def crossing : List Char :=
  "start: LDI R1, data ; ahead\n\tprn r1\r\n# back\nLDI R+2,START\nJMP R2\nData :\nDB 0x1F\nDB Start".toList

theorem assemble_two_pass_crossing :
    let ls : List Line := [
      ⟨some "START".toList, some ("LDI".toList, ["R1".toList, "data".toList])⟩,
      ⟨none, some ("PRN".toList, ["r1".toList])⟩, ⟨none, none⟩,
      ⟨none, some ("LDI".toList, ["R+2".toList, "START".toList])⟩,
      ⟨none, some ("JMP".toList, ["R2".toList])⟩, ⟨some "DATA".toList, none⟩,
      ⟨none, some ("DB".toList, ["0x1F".toList])⟩, ⟨none, some ("DB".toList, ["Start".toList])⟩]
    let cells : List (List Cell) := [
      [.byte 0x82, .byte 1, .label "DATA".toList], [.byte 0x47, .byte 1], [],
      [.byte 0x82, .byte 2, .label "START".toList], [.byte 0x54, .byte 2], [], [.byte 0x1F],
      [.label "START".toList]]
    let program : List UInt8 := [0x82, 1, 10, 0x47, 1, 0x82, 2, 0, 0x54, 2, 0x1F, 0]
    Written crossing ls ∧ Sound ls cells ∧ List.Forall₂ (Resolves ls) cells.flatten program ∧
      assemble crossing = .ok program := by
  intro ls cells program
  have assembled : assemble crossing = .ok program := by decide +kernel
  have written : Written crossing ls := written_iff.mpr (by decide +kernel)
  obtain ⟨ls', only, ok, -⟩ := assemble_two_pass crossing
  obtain rfl := (only ls).mp written
  obtain ⟨cells', sound, resolves⟩ := (ok program).mp assembled
  have capitals : Capitals ls := (written_iff.mp written) ▸ capitals_sourceLines crossing
  obtain rfl : cells = cells' := by
    rw [← ((sound_iff capitals).mp sound).2]
    decide +kernel
  exact ⟨written, sound, resolves, assembled⟩

/-- The second line is wrong by itself, so the label of the first one is not looked for. -/
example : assemble "LDI R0,gone\nPRN R8".toList = .error ⟨2, .badRegister "R8".toList⟩ := by
  decide +kernel

end Ls8.Assembly
