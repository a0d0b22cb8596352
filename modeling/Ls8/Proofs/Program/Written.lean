import Ls8.CommandLine
import Ls8.Proofs.Assembly.TwoPass
import Ls8.Proofs.Text.Words

/-! The text of a program read back. It has a line for each byte, and the bytes come back from
these lines if they fit into the memory; so do the bytes of a source that was assembled. -/
namespace Ls8

namespace Program

open Text (Word Bare Spelled decimal word_bits word_address word_decimal)

def row (b : UInt8) (a : Nat) : List Char := Text.bits b ++ " # ".toList ++ Text.address a

def rows (a : Nat) (bytes : List UInt8) : List (List Char) :=
  (bytes.zipIdx a).map fun (b, a) => row b a

theorem rows_cons (a : Nat) (b : UInt8) (bytes : List UInt8) :
    rows a (b :: bytes) = row b a :: rows (a + 1) bytes := rfl

theorem spelled_row (b : UInt8) (a : Nat) : Spelled [' ', '#'] (row b a) := by
  have mark : Spelled [' ', '#'] " # ".toList := by simp [Spelled]
  apply Text.spelled_append (Text.spelled_append ?_ mark) ?_
  · exact Text.spelled_of_word _ (word_bits b).2
  · exact Text.spelled_of_word _ (word_address a).2

theorem trim_row (b : UInt8) (a : Nat) : Text.trim (row b a) = row b a := by
  obtain ⟨some_bit, bits⟩ := word_bits b
  obtain ⟨some_digit, digits⟩ := word_address a
  apply Text.trim_bare
  rw [row, List.append_assoc]
  apply Text.bare_append
  · exact Text.bare_of_word bits
  · exact Text.bare_of_word digits
  · exact some_bit
  · exact some_digit

theorem value_row (b : UInt8) (a : Nat) : value (row b a) = Text.bits b := by
  obtain ⟨some_bit, word⟩ := word_bits b
  have shown : row b a = (Text.bits b ++ [' ']) ++ '#' :: ' ' :: Text.address a := by simp [row]
  have free : ∀ c ∈ Text.bits b ++ [' '], (c == '#') = false := by
    intro c member
    rcases List.mem_append.mp member with bit | blank
    · exact Text.ne_of_isAlphanum (word c bit) rfl
    · rw [List.mem_singleton.mp blank]
      rfl
  have bare := Text.bare_of_word word
  have trimmed := Text.trim_padded [] [' '] (by simp) Text.blank_space bare some_bit
  rw [value, shown, Text.before_append_mark _ free rfl]
  exact trimmed

theorem byte_bits (b : UInt8) : byte (Text.bits b) = .ok b := by
  have binary : (Text.bits b).all (fun c => c == '0' || c == '1') = true := by
    rw [List.all_eq_true]
    intro c member
    rcases Text.binary_of_mem_bits member with rfl | rfl <;> rfl
  have small : (some b.toNat).filter (· < 256) = some b.toNat := by
    simp [b.toNat_lt]
  rw [byte, if_pos binary, Text.natural?_bits, small]
  simp

theorem addLine_row {p : Program} (n a : Nat) (b : UInt8) :
    p.addLine n (row b a) =
      if p.size = Memory.space then .error .tooLarge else .ok (p.push b (row b a)) := by
  have some_bit : ¬ (Text.bits b).isEmpty = true := by simp [(word_bits b).1]
  simp only [addLine, value_row, if_neg some_bit, byte_bits, trim_row]

theorem addLines_rows {p : Program} (n a : Nat) (bytes : List UInt8)
    (room : p.size ≤ Memory.space) :
    p.addLines n ((rows a bytes).map some) =
      if p.size + bytes.length ≤ Memory.space then
        .ok ⟨p.bytes ++ bytes, p.lines ++ rows a bytes⟩
      else .error .tooLarge := by
  induction bytes generalizing p n a with
  | nil => simp [rows, addLines, room]
  | cons b bytes ih =>
    rw [rows_cons, List.map_cons, addLines, addLine_row, List.length_cons]
    by_cases full : p.size = Memory.space
    · have large : ¬ p.size + (bytes.length + 1) ≤ Memory.space := by omega
      simp only [if_pos full, if_neg large]
    · have size : (p.push b (row b a)).size = p.size + 1 := by simp [size, push]
      have count : p.size + 1 + bytes.length = p.size + (bytes.length + 1) := by omega
      have next : (p.push b (row b a)).size ≤ Memory.space := by omega
      simp only [if_neg full, ih _ _ next, size, count]
      simp [push]

theorem addLines_silent {p : Program} {n : Nat} {line : List Char}
    (rest : List (Option (List Char))) (silent : value line = []) :
    p.addLines n (some line :: rest) = p.addLines (n + 1) rest := by
  simp [addLines, addLine, silent]

theorem lines_byteLines (a : Nat) (bytes : List UInt8) :
    Text.lines ((bytes.zipIdx a).flatMap fun (b, a) => byteLine a b) = rows a bytes := by
  induction bytes generalizing a with
  | nil => rfl
  | cons b bytes ih =>
    have feed : '\n' ∉ row b a := Text.not_mem_of_spelled (spelled_row b a) rfl (by decide)
    have ret : '\r' ∉ row b a := Text.not_mem_of_spelled (spelled_row b a) rfl (by decide)
    have first : ((b :: bytes).zipIdx a).flatMap (fun (b, a) => byteLine a b) =
        row b a ++ '\n' :: (bytes.zipIdx (a + 1)).flatMap fun (b, a) => byteLine a b := by
      simp [byteLine, row]
    rw [first, Text.lines_append_feed _ feed ret, ih, rows_cons]

def title : List Char := "# LS-8 program".toList

def count (p : Program) : List Char := "# ".toList ++ (decimal p.size ++ " bytes".toList)

theorem text_eq (p : Program) :
    p.text = title ++ '\n' :: (p.count ++ '\n' :: ([] ++ '\n' ::
      p.bytes.zipIdx.flatMap fun (b, a) => byteLine a b)) := by
  have cut : p.text = (title ++ '\n' :: "# ".toList) ++ decimal p.size ++
      (" bytes".toList ++ ['\n', '\n']) ++ p.bytes.zipIdx.flatMap fun (b, a) => byteLine a b := rfl
  rw [cut]
  simp only [count, List.append_assoc, List.cons_append, List.nil_append]

theorem spelled_count (p : Program) : Spelled [' ', '#'] p.count := by
  have front : "# ".toList ⊆ [' ', '#'] := by decide
  have gap : " ".toList ⊆ [' ', '#'] := by decide
  have unit : Word "bytes".toList := by decide
  apply Text.spelled_append
  · exact fun c member => .inr (front member)
  apply Text.spelled_append (Text.spelled_of_word _ (word_decimal p.size).2)
  apply Text.spelled_append (s := " ".toList)
  · exact fun c member => .inr (gap member)
  · exact Text.spelled_of_word _ unit

theorem lines_text (p : Program) :
    Text.lines p.text = title :: p.count :: [] :: rows 0 p.bytes := by
  have feed : '\n' ∉ p.count := Text.not_mem_of_spelled (spelled_count p) rfl (by decide)
  have ret : '\r' ∉ p.count := Text.not_mem_of_spelled (spelled_count p) rfl (by decide)
  have first : '\n' ∉ title ∧ '\r' ∉ title := by decide
  rw [text_eq, Text.lines_append_feed _ first.1 first.2, Text.lines_append_feed _ feed ret,
    Text.lines_append_feed _ List.not_mem_nil List.not_mem_nil, lines_byteLines]

theorem parse_written (p : Program) :
    parse p.text =
      if p.size ≤ Memory.space then .ok ⟨p.bytes, rows 0 p.bytes⟩ else .error .tooLarge := by
  have start : empty.size ≤ Memory.space := by decide
  have bytes : empty.size + p.bytes.length = p.size := Nat.zero_add _
  have silentTitle : value title = [] := rfl
  have silentCount : value p.count = [] := rfl
  rw [parse, lines_text]
  simp only [List.map_cons]
  rw [addLines_silent _ silentTitle, addLines_silent _ silentCount,
    addLines_silent _ rfl, addLines_rows _ _ _ start, bytes]
  rfl

theorem text_of_bytes {p q : Program} (same : p.bytes = q.bytes) : p.text = q.text := by
  rw [text_eq, text_eq, count, count, size, size, same]

theorem stdout_assembled {source : List Char} {b : List UInt8} (h : assemble source = .ok b)
    (o : CommandLine.Options) (v : Verbosity) :
    (CommandLine.assembleAnswer o v (.ok (Files.bytesOf source))).stdout.toList =
      (ofBytes b).text := by
  simp only [CommandLine.assembleAnswer, Files.text?_bytesOf, h, CommandLine.Answer.say,
    String.toList_ofList]

/-- The text of a program gives back its bytes, each with the line it was written on, or is too
large with more bytes than the memory has cells. What the assembler prints is never too large. -/
theorem parse_text :
    (∀ p : Program, p.size ≤ Memory.space → ∃ q, parse p.text = .ok q ∧ q.bytes = p.bytes ∧
      q.lines = (p.bytes.zipIdx.map fun (b, a) =>
        Text.bits b ++ " # ".toList ++ Text.address a) ∧
      q.text = p.text) ∧
    (∀ p : Program, Memory.space < p.size → parse p.text = .error .tooLarge) ∧
    ∀ source b, assemble source = .ok b → ∀ o v, ∃ q,
      parse (CommandLine.assembleAnswer o v (.ok (Files.bytesOf source))).stdout.toList = .ok q ∧
      q.bytes = b ∧ Cpu.ofProgram q.bytes = .ok { Cpu.new with
        mem := ⟨(b ++ List.replicate (Memory.space - b.length) 0).toArray⟩ } := by
  refine ⟨?_, ?_, ?_⟩
  · intro p fits
    refine ⟨⟨p.bytes, rows 0 p.bytes⟩, ?_, rfl, rfl, text_of_bytes rfl⟩
    rw [parse_written, if_pos fits]
  · intro p large
    rw [parse_written, if_neg (Nat.not_le_of_lt large)]
  · intro source b assembled o v
    have fits : (ofBytes b).size ≤ Memory.space := Assembly.length_of_ok assembled
    refine ⟨⟨b, rows 0 b⟩, ?_, rfl, Cpu.ofProgram_eq fits⟩
    rw [stdout_assembled assembled, parse_written, if_pos fits]
    rfl

end Program
end Ls8
