import Ls8.Assembly.Line
import Ls8.Instruction
import Ls8.Proofs.Text.Words

/-! Operands as a listing writes them, read by the assembler, and what an operand that can be read
is spelled with. -/
namespace Ls8.Assembly

open Text (decimal)

theorem numeral_of_digits {s : List Char} (some_digit : s ≠ [])
    (digits : ∀ c ∈ s, c.isDigit = true) :
    numeral s = (Text.word64? 10 s).elim .malformed .value := by
  unfold numeral
  split
  · next t e => cases digits 'x' (by simp)
  · next t e => cases digits 'X' (by simp)
  · next t e => cases digits 'b' (by simp)
  · next t e => cases digits 'B' (by simp)
  · next c t _ _ _ _ =>
    have first : c.isDigit = true := digits c (by simp)
    simp [first]
  · exact absurd rfl some_digit

theorem numeral_decimal (n : Nat) :
    numeral (decimal n) = (Text.word64? 10 (decimal n)).elim .malformed .value :=
  numeral_of_digits Nat.toDigits_ne_nil fun _ h => Text.isDigit_of_mem_decimal h

theorem value_of_numeral {s : List Char} {b : UInt8} (h : numeral s = .value b.toNat) :
    value s = .ok (.byte b) := by
  have small := b.toNat_lt
  have inside : 0 ≤ (b.toNat : Int) ∧ (b.toNat : Int) < 256 := by omega
  rw [value, h]
  simp only [if_pos inside, Int.toNat_natCast, UInt8.ofNat_toNat]

theorem value_decimal (b : UInt8) : value (decimal b.toNat) = .ok (.byte b) := by
  have fits : b.toNat < 0x8000000000000000 := Nat.lt_trans b.toNat_lt (by decide)
  apply value_of_numeral
  rw [numeral_decimal, Text.word64?_of_digits (fun c h => Text.isDigit_of_mem_decimal h)
    (Text.natural?_decimal _) fits]
  rfl

theorem value_bits (b : UInt8) : value ('0' :: 'b' :: Text.bits b) = .ok (.byte b) := by
  have fits : b.toNat < 0x8000000000000000 := Nat.lt_trans b.toNat_lt (by decide)
  apply value_of_numeral
  rw [numeral, Text.word64?_of_digits (fun c h => Text.isDigit_of_mem_bits h)
    (Text.natural?_bits b) fits]
  rfl

theorem register_registerName (r : UInt8) :
    register (Instruction.registerName r) =
      if r < 8 then .ok (.byte r) else .error (.badRegister (Instruction.registerName r)) := by
  have number : register? (Instruction.registerName r) =
      (some r.toNat).filter (· < 8) := by
    rw [← Text.natural?_decimal]
    exact Text.below?_of_digits fun c h => Text.isDigit_of_mem_decimal h
  have same : r < 8 ↔ r.toNat < 8 := UInt8.lt_iff_toNat_lt
  rw [register, number]
  by_cases small : r < 8
  · have kept : (some r.toNat).filter (· < 8) = some r.toNat := by
      simp [same.mp small]
    simp only [kept, if_pos small]
    simp
  · have lost : (some r.toNat).filter (· < 8) = none := by
      simp [Nat.le_of_not_lt (mt same.mpr small)]
    simp only [lost, if_neg small]

theorem opcode?_mnemonic (op : Opcode) : opcode? op.mnemonic = some op := by
  cases op <;> decide

theorem mnemonic_injective {op op' : Opcode} (h : op.mnemonic = op'.mnemonic) : op = op' := by
  have left := opcode?_mnemonic op
  rw [h, opcode?_mnemonic op'] at left
  exact (Option.some.inj left).symm

theorem mnemonic_ne_data (op : Opcode) : op.mnemonic ≠ "DB".toList := by
  cases op <;> decide

/-- The names of an opcode in capitals: its mnemonic, and one more of `HLT` and of `OR` each. -/
def Names (name : List Char) (op : Opcode) : Prop :=
  name = op.mnemonic ∨ (name = "HALT".toList ∧ op = .hlt) ∨ (name = "BOR".toList ∧ op = .or)

theorem capital_mnemonic (op : Opcode) : Text.Capital op.mnemonic := by
  have same : Text.upper op.mnemonic = op.mnemonic := by cases op <;> decide
  rw [← same]
  exact Text.capital_upper _

theorem names_of_opcode? {name : List Char} {op : Opcode} (capital : Text.Capital name)
    (h : opcode? name = some op) : Names name op := by
  unfold opcode? at h
  split at h
  · next halt =>
    cases h
    exact .inr (.inl ⟨halt, rfl⟩)
  · unfold Opcode.ofMnemonic? at h
    split at h
    · next second =>
      cases h
      have bor : Text.Capital "BOR".toList := Text.capital_upper "BOR".toList
      exact .inr (.inr ⟨Text.eq_of_sameLetters capital bor second, rfl⟩)
    · have letters := List.find?_some h
      exact .inl (Text.eq_of_sameLetters (capital_mnemonic op) capital letters).symm

theorem register?_lt {s : List Char} {n : Nat} (h : register? s = some n) : n < 8 := by
  unfold register? at h
  split at h
  · exact Text.below?_lt h
  · exact Text.below?_lt h
  · cases h

theorem spelled_of_word64? {radix : Nat} {s : List Char} {otherwise : Numeral} {i : Int}
    (h : (Text.word64? radix s).elim otherwise .value = .value i)
    (other : ∀ j, otherwise ≠ .value j) : Text.Spelled ['-', '+'] s := by
  cases read : Text.word64? radix s with
  | none =>
    rw [read] at h
    exact absurd h (other i)
  | some j =>
    obtain ⟨whole, -⟩ := Option.filter_eq_some_iff.mp read
    exact Text.spelled_of_integer? whole

theorem spelled_of_numeral {s : List Char} {i : Int} (h : numeral s = .value i) :
    Text.Spelled ['-', '+'] s := by
  have headed (zero letter : Char) {radix : Nat} {s : List Char}
      (digits : zero.isAlphanum = true ∧ letter.isAlphanum = true)
      (read : (Text.word64? radix s).elim Numeral.absent .value = .value i) :
      Text.Spelled ['-', '+'] (zero :: letter :: s) :=
    Text.spelled_cons (.inl digits.1)
      (Text.spelled_cons (.inl digits.2) (spelled_of_word64? read (by simp)))
  unfold numeral at h
  split at h
  · exact headed '0' 'x' (by decide) h
  · exact headed '0' 'X' (by decide) h
  · exact headed '0' 'b' (by decide) h
  · exact headed '0' 'B' (by decide) h
  · split at h
    · exact spelled_of_word64? h (by simp)
    · cases h
  · cases h

theorem spelled_of_isName {s : List Char} (h : isName s = true) : Text.Spelled ['_'] s := by
  intro c member
  have inside := List.all_eq_true.mp (Bool.and_eq_true_iff.mp h).2 c member
  rcases Bool.or_eq_true_iff.mp inside with letter | line
  · exact .inl letter
  · rw [eq_of_beq line]
    exact .inr (by decide)

theorem toNat_of_isNameStart {c : Char} (h : isNameStart c = true) : 65 ≤ c.toNat := by
  simp only [isNameStart, Char.isAlpha, Char.isUpper, Char.isLower, Bool.or_eq_true,
    Bool.and_eq_true, decide_eq_true_eq, ge_iff_le, UInt32.le_iff_toNat_le, Char.toNat_val,
    beq_iff_eq] at h
  rcases h with letter | rfl
  · simp at letter
    omega
  · decide

theorem numeral_of_isName {s : List Char} (h : isName s = true) : numeral s = .absent := by
  cases s with
  | nil => rfl
  | cons c s =>
    have start := toNat_of_isNameStart (Bool.and_eq_true_iff.mp h).1
    have other : ∀ d : Char, d.toNat < 65 → c ≠ d := by
      rintro d small rfl
      omega
    have digit : c.isDigit = false := by
      rw [Bool.eq_false_iff]
      intro digit
      have small : c.toNat ≤ 57 := (Char.isDigit_iff_toNat.mp digit).2
      omega
    have zero := other '0' (by decide)
    have minus := other '-' (by decide)
    unfold numeral
    split <;> simp_all

theorem value_of_isName {s : List Char} (h : isName s = true) :
    value s = .ok (.label (Text.upper s)) := by
  rw [value, numeral_of_isName h]
  simp only [h, if_true]

theorem value_cases {s : List Char} {c : Cell} (h : value s = .ok c) :
    (∃ b i, c = .byte b ∧ numeral s = .value i) ∨
      (c = .label (Text.upper s) ∧ isName s = true) := by
  unfold value at h
  split at h
  · next i read =>
    split at h
    · cases h
      exact .inl ⟨_, i, rfl, read⟩
    · cases h
  · cases h
  · split at h
    · next named =>
      cases h
      exact .inr ⟨rfl, named⟩
    · cases h

theorem value_error_cases {s : List Char} {cause : Cause} (h : value s = .error cause) :
    (∃ i, cause = .valueOutOfRange i) ∨ cause.kind = .syntaxError := by
  unfold value at h
  split at h
  · split at h
    · cases h
    · cases h
      exact .inl ⟨_, rfl⟩
  · cases h
    exact .inr rfl
  · split at h
    · cases h
    · cases h
      exact .inr rfl

theorem spelled_of_value {s : List Char} {c : Cell} (h : value s = .ok c) :
    Text.Spelled ['-', '+', '_'] s := by
  rcases value_cases h with ⟨b, i, -, read⟩ | ⟨-, named⟩
  · exact Text.spelled_of_subset (spelled_of_numeral read) (by decide)
  · exact Text.spelled_of_subset (spelled_of_isName named) (by decide)

end Ls8.Assembly
