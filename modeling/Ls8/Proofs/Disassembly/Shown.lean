import Ls8.Assembly
import Ls8.Proofs.Assembly.Operand
import Ls8.Proofs.Disassembly.Rows
import Ls8.Proofs.Text.Words

/-! The words of a listing. Each of its lines is read back as the words it was made of. -/
namespace Ls8

open Text (Word Bare Spelled word_address)

namespace Item

def name : Item → List Char
  | instruction i => i.opcode.mnemonic
  | data _ => "DB".toList

def given : Item → List (List Char)
  | instruction i =>
    i.registers.map Instruction.registerName ++ i.literals.map fun v => Text.decimal v.toNat
  | data b => ["0b".toList ++ Text.bits b]

theorem text_eq (it : Item) :
    it.text =
      if it.given = [] then it.name else it.name ++ ' ' :: Text.join [','] it.given := by
  cases it with
  | instruction i =>
    cases i <;>
      simp [text, name, given, Instruction.text, Instruction.operands, Instruction.registers,
        Instruction.literals, Text.join, List.intercalate]
  | data b => simp [text, name, given, Text.join]

theorem word_name (it : Item) : it.name ≠ [] ∧ Word it.name := by
  cases it with
  | instruction i => cases h : i.opcode <;> simp [name, h, Opcode.mnemonic, Word]
  | data b => simp [name, Word]

theorem word_given (it : Item) : ∀ s ∈ it.given, s ≠ [] ∧ Word s := by
  intro s member
  cases it with
  | instruction i =>
    rcases List.mem_append.mp member with reg | lit
    · obtain ⟨r, -, rfl⟩ := List.mem_map.mp reg
      exact ⟨by simp [Instruction.registerName], List.forall_mem_cons.mpr ⟨rfl, (Text.word_decimal _).2⟩⟩
    · obtain ⟨v, -, rfl⟩ := List.mem_map.mp lit
      exact Text.word_decimal _
  | data b =>
    rw [given, List.mem_singleton] at member
    rw [member]
    have radix : Word "0b".toList := by decide
    refine ⟨by simp, List.forall_mem_append.mpr ⟨radix, ?_⟩⟩
    exact (Text.word_bits b).2

theorem upper_name (it : Item) : Text.upper it.name = it.name := by
  cases it with
  | instruction i => cases h : i.opcode <;> simp only [name, h] <;> decide
  | data b => simp only [name]; decide

theorem bare_text (it : Item) : it.text ≠ [] ∧ Bare it.text := by
  obtain ⟨some_char, word⟩ := it.word_name
  rw [text_eq]
  split
  · exact ⟨some_char, Text.bare_of_word word⟩
  · next some_given =>
    obtain ⟨first, more, e⟩ := List.exists_cons_of_ne_nil some_given
    have words := it.word_given
    rw [e] at words ⊢
    obtain ⟨rest, bare⟩ := Text.bare_join [','] words
    exact ⟨by simp [some_char], Text.bare_append (Text.bare_of_word word) bare some_char rest [' ']⟩

theorem spelled_text (it : Item) : Spelled [' ', ','] it.text := by
  have front := Text.spelled_of_word [' ', ','] it.word_name.2
  rw [text_eq]
  split
  · exact front
  · refine Text.spelled_append front (List.forall_mem_cons.mpr ⟨.inr (by simp), ?_⟩)
    exact Text.spelled_join (by simp) fun s member => (it.word_given s member).2

theorem split_text (it : Item) : Assembly.split it.text = (it.name, it.given) := by
  have unbroken : ∀ c ∈ it.name, Text.isBlank c = false :=
    fun c member => Text.isBlank_of_isAlphanum (it.word_name.2 c member)
  rw [text_eq]
  split
  · next none_given =>
    rw [Assembly.split, Text.cut_eq_none.mpr unbroken, upper_name, none_given]
  · next some_given =>
    obtain ⟨first, more, e⟩ := List.exists_cons_of_ne_nil some_given
    have words := it.word_given
    rw [e] at words ⊢
    obtain ⟨rest, bare⟩ := Text.bare_join [','] words
    have apart := Text.pieces_join ',' rfl fun s member => (words s member).2
    have trimmed : ∀ s ∈ first :: more, Text.trim s = id s :=
      fun s member => Text.trim_bare (Text.bare_of_word (words s member).2)
    have each : (first :: more).map Text.trim = first :: more :=
      (List.map_congr_left trimmed).trans (List.map_id _)
    have blank : Text.isBlank ' ' = true := by decide
    rw [Assembly.split, Text.cut_append_mark _ unbroken blank]
    simp only [Text.trim_bare bare, upper_name, List.isEmpty_iff, rest, if_false, apart, each]

end Item

namespace Disassembly

def Row.shown (r : Row) : List Char :=
  Text.address r.address ++ ": ".toList ++ Text.padRight ' ' 12 r.item.text ++ " ; ".toList ++
    Text.join [' '] (r.raw.map Text.bits)

/-- A row as a line of source: its address is a label. -/
def Row.source (r : Row) : Assembly.Line :=
  ⟨some (Text.address r.address), some (r.item.name, r.item.given)⟩

def Row.front (r : Row) : List Char := Text.address r.address ++ (": ".toList ++ r.item.text)

def Row.pad (r : Row) : List Char := List.replicate (12 - r.item.text.length) ' ' ++ [' ']

theorem shown_eq (r : Row) :
    r.shown = r.front ++ r.pad ++ ';' :: ' ' :: Text.join [' '] (r.raw.map Text.bits) := by
  simp [Row.shown, Row.front, Row.pad, Text.padRight]

theorem spelled_front (r : Row) : Spelled [' ', ',', ':'] r.front := by
  have colon : Spelled [' ', ',', ':'] ": ".toList := by simp [Spelled]
  have text := Text.spelled_of_subset r.item.spelled_text (List.subset_append_left _ [':'])
  exact Text.spelled_append (Text.spelled_of_word _ (word_address _).2)
    (Text.spelled_append colon text)

theorem bare_front (r : Row) : r.front ≠ [] ∧ Bare r.front := by
  obtain ⟨some_digit, word⟩ := word_address r.address
  obtain ⟨some_char, bare⟩ := r.item.bare_text
  constructor
  · simp [Row.front, some_digit]
  · exact Text.bare_append (Text.bare_of_word word) bare some_digit some_char ": ".toList

theorem blank_pad (r : Row) : ∀ c ∈ r.pad, c = ' ' := by
  intro c member
  rcases List.mem_append.mp member with pad | last
  · exact List.eq_of_mem_replicate pad
  · exact List.mem_singleton.mp last

theorem spelled_shown (r : Row) : Spelled [' ', ',', ':', ';'] r.shown := by
  rw [shown_eq]
  have front := Text.spelled_of_subset (spelled_front r) (List.subset_append_left _ [';'])
  have pad : Spelled [' ', ',', ':', ';'] r.pad :=
    fun c member => .inr (by simp [blank_pad r c member])
  refine Text.spelled_append (Text.spelled_append front pad) ?_
  refine List.forall_mem_cons.mpr ⟨.inr (by simp), List.forall_mem_cons.mpr ⟨.inr (by simp), ?_⟩⟩
  apply Text.spelled_join (by simp)
  intro s member
  obtain ⟨b, -, rfl⟩ := List.mem_map.mp member
  exact (Text.word_bits b).2

theorem unmarked_front (r : Row) : ∀ c ∈ r.front ++ r.pad, c ≠ ';' ∧ c ≠ '#' := by
  intro c member
  rcases List.mem_append.mp member with front | pad
  · have semicolon := Text.free_of_spelled ';' (spelled_front r) rfl (by simp) c front
    have hash := Text.free_of_spelled '#' (spelled_front r) rfl (by simp) c front
    exact ⟨ne_of_beq_false semicolon, ne_of_beq_false hash⟩
  · rw [blank_pad r c pad]
    decide

theorem code_shown (r : Row) : Assembly.code r.shown = r.front := by
  obtain ⟨some_char, bare⟩ := bare_front r
  have free : ∀ c ∈ r.front ++ r.pad, (c == ';' || c == '#') = false := by
    intro c member
    obtain ⟨semicolon, hash⟩ := unmarked_front r c member
    simp [semicolon, hash]
  have blank : ∀ c ∈ r.pad, Text.isBlank c = true := by
    intro c member
    rw [blank_pad r c member]
    decide
  have whole := Text.trim_padded [] r.pad (by simp) blank bare some_char
  rw [Assembly.code, shown_eq, Text.before_append_mark _ free rfl]
  exact whole

theorem read_shown (r : Row) : Assembly.Line.read r.shown = r.source := by
  obtain ⟨-, word⟩ := word_address r.address
  obtain ⟨some_char, bare⟩ := r.item.bare_text
  have unmarked : ∀ c ∈ Text.address r.address, (c == ':') = false :=
    fun c member => Text.ne_of_isAlphanum (word c member) rfl
  have label : Text.upper (Text.trim (Text.address r.address)) = Text.address r.address := by
    rw [Text.trim_bare (Text.bare_of_word word)]
    exact Text.upper_of_digits fun c h => Text.isDigit_of_mem_address h
  have rest : Text.trim (' ' :: r.item.text) = r.item.text := by
    have whole := Text.trim_padded [' '] [] Text.blank_space (by simp) bare some_char
    simpa using whole
  have front : r.front = Text.address r.address ++ ':' :: ' ' :: r.item.text := rfl
  rw [Assembly.Line.read, code_shown, front, Text.cut_append_mark _ unmarked rfl]
  simp only [label, rest, Assembly.statement?, List.isEmpty_iff, some_char, if_false,
    r.item.split_text, Row.source]

def preamble : List Assembly.Line := List.replicate 3 ⟨none, none⟩

theorem lines_rows (rs : List Row) : Text.lines (rs.flatMap Row.line) = rs.map Row.shown := by
  induction rs with
  | nil => rfl
  | cons r rs ih =>
    have feed : '\n' ∉ r.shown := Text.not_mem_of_spelled (spelled_shown r) rfl (by decide)
    have ret : '\r' ∉ r.shown := Text.not_mem_of_spelled (spelled_shown r) rfl (by decide)
    have first : (r :: rs).flatMap Row.line = r.shown ++ '\n' :: rs.flatMap Row.line := by
      simp [Row.line, Row.shown]
    rw [first, Text.lines_append_feed _ feed ret, ih, List.map_cons]

def titles : List (List Char) :=
  ["; LS-8 Disassembly".toList, "; -----------------".toList, []]

theorem lines_listing (image : List UInt8) :
    Text.lines (listing image) = titles ++ (rows 0 image).map Row.shown := by
  let title := "; LS-8 Disassembly".toList
  let rule := "; -----------------".toList
  have shown : titles ++ (rows 0 image).map Row.shown =
      title :: rule :: [] :: Text.lines ((rows 0 image).flatMap Row.line) := by
    rw [lines_rows]
    rfl
  have head : heading = title ++ '\n' :: (rule ++ ['\n', '\n']) := by decide
  rw [shown, ← Text.lines_append_feed (s := []) _ (by decide) (by decide),
    ← Text.lines_append_feed (s := rule) _ (by decide) (by decide),
    ← Text.lines_append_feed (s := title) _ (by decide) (by decide), listing, head]
  simp

/-- A listing as assembler source: each row is a line. -/
theorem sourceLines_listing (image : List UInt8) :
    Assembly.sourceLines (listing image) = preamble ++ (rows 0 image).map Row.source := by
  have silent : titles.map Assembly.Line.read = preamble := by decide
  have each : ((rows 0 image).map Row.shown).map Assembly.Line.read =
      (rows 0 image).map Row.source := by
    rw [List.map_map, List.map_inj_left]
    intro r _
    rw [Function.comp_apply, read_shown]
  rw [Assembly.sourceLines, lines_listing, List.map_append, silent, each]

end Disassembly
end Ls8
