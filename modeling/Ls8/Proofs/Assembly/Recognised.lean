import Ls8.Assembly
import Ls8.Proofs.Assembly.Operand
import Ls8.Proofs.Text.Radix

/-! The language of the operands. A value is a number in one of three notations or the name of a
label, and never both; a register has the one form of its name. What is in neither language is
refused, and the shape alone decides how. -/
namespace Ls8.Assembly

open Text (Denotes Signed Fits)

/-- Numbers as they are written, and the integers that they mean. After a mark of the radix either
sign may stand; a decimal number has no sign but a minus. -/
inductive Number : List Char → Int → Prop where
  | hexadecimal {x s i} (mark : x = 'x' ∨ x = 'X') (h : Signed 16 s i) : Number ('0' :: x :: s) i
  | binary {x s i} (mark : x = 'b' ∨ x = 'B') (h : Signed 2 s i) : Number ('0' :: x :: s) i
  | decimal {s n} (h : Denotes 10 s n) : Number s n
  | negative {s n} (h : Denotes 10 s n) : Number ('-' :: s) (-n)

def Name (s : List Char) : Prop :=
  ∃ c t, s = c :: t ∧ (c.isAlpha ∨ c = '_') ∧ ∀ b ∈ t, b.isAlphanum ∨ b = '_'

/-- R in either case and a decimal number, which may have a plus. -/
def RegisterName (s : List Char) (r : Nat) : Prop :=
  ∃ c t, (c = 'R' ∨ c = 'r') ∧ (s = c :: t ∨ s = c :: '+' :: t) ∧ Denotes 10 t r

/-- What reading an operand as a value makes of a draft, and the byte that it gives. -/
def Draft.readValue (d : Draft) (n : Nat) (operand : List Char) : Except Cause (Draft × UInt8) :=
  (value operand).map (d.note n)

theorem Draft.addBytes_value (d : Draft) (n : Nat) (s : List Char) (rest : Readings) :
    d.addBytes n (value s :: rest) =
      match d.readValue n s with
      | .error cause => .error cause
      | .ok (noted, b) =>
        match noted.emit b with
        | .ok d => d.addBytes n rest
        | .error cause => .error cause := by
  unfold Draft.readValue
  cases value s <;> rfl

theorem numeral_hexadecimal {x : Char} (mark : x = 'x' ∨ x = 'X') (s : List Char) :
    numeral ('0' :: x :: s) = (Text.word64? 16 s).elim .absent .value := by
  rcases mark with rfl | rfl <;> rfl

theorem numeral_binary {x : Char} (mark : x = 'b' ∨ x = 'B') (s : List Char) :
    numeral ('0' :: x :: s) = (Text.word64? 2 s).elim .absent .value := by
  rcases mark with rfl | rfl <;> rfl

theorem elim_eq_value {r : Option Int} {otherwise : Numeral} {i : Int}
    (other : ∀ j, otherwise ≠ .value j) : r.elim otherwise .value = .value i ↔ r = some i := by
  cases r with
  | none => simp [other]
  | some j => simp

theorem isDigit_of_denotes {s : List Char} {n : Nat} (h : Denotes 10 s n) :
    ∀ c ∈ s, c.isDigit = true := by
  have table : ∀ d < 10, d.digitChar.isDigit = true ∧ d.digitChar.toUpper.isDigit = true := by
    decide
  intro c member
  obtain ⟨d, digit⟩ := Option.isSome_iff_exists.mp (Text.digit?_of_mem (by decide) h member)
  obtain ⟨small, rfl | rfl⟩ := (Text.digit?_eq_some (by decide)).mp digit
  · exact (table d small).1
  · exact (table d small).2

theorem head_of_number {s : List Char} {i : Int} (h : Number s i) :
    ∃ c t, s = c :: t ∧ (c.isDigit = true ∨ c = '-') := by
  cases h with
  | hexadecimal mark h => exact ⟨_, _, rfl, .inl rfl⟩
  | binary mark h => exact ⟨_, _, rfl, .inl rfl⟩
  | decimal h =>
    obtain ⟨c, t, rfl⟩ := List.exists_cons_of_ne_nil h.1
    exact ⟨c, t, rfl, .inl (isDigit_of_denotes h c List.mem_cons_self)⟩
  | negative h => exact ⟨_, _, rfl, .inr rfl⟩

theorem numeral_eq_value {s : List Char} {i : Int} :
    numeral s = .value i ↔ Number s i ∧ Fits i := by
  have read_as {radix : Nat} (small : radix ≤ 16) {t : List Char} {otherwise : Numeral}
      (other : ∀ j, otherwise ≠ .value j) :
      (Text.word64? radix t).elim otherwise .value = .value i ↔ Signed radix t i ∧ Fits i := by
    rw [elim_eq_value other, Text.word64?_eq_some small]
  constructor
  · intro read
    unfold numeral at read
    split at read
    · obtain ⟨h, fits⟩ := (read_as (by decide) (by simp)).mp read
      exact ⟨.hexadecimal (.inl rfl) h, fits⟩
    · obtain ⟨h, fits⟩ := (read_as (by decide) (by simp)).mp read
      exact ⟨.hexadecimal (.inr rfl) h, fits⟩
    · obtain ⟨h, fits⟩ := (read_as (by decide) (by simp)).mp read
      exact ⟨.binary (.inl rfl) h, fits⟩
    · obtain ⟨h, fits⟩ := (read_as (by decide) (by simp)).mp read
      exact ⟨.binary (.inr rfl) h, fits⟩
    · split at read
      · next first =>
        obtain ⟨h, fits⟩ := (read_as (by decide) (by simp)).mp read
        cases h with
        | bare h => exact ⟨.decimal h, fits⟩
        | plus h => exact absurd first (by decide)
        | minus h => exact ⟨.negative h, fits⟩
      · cases read
    · cases read
  · rintro ⟨h, fits⟩
    cases h with
    | hexadecimal mark h =>
      rw [numeral_hexadecimal mark, read_as (by decide) (by simp)]
      exact ⟨h, fits⟩
    | binary mark h =>
      rw [numeral_binary mark, read_as (by decide) (by simp)]
      exact ⟨h, fits⟩
    | decimal h =>
      rw [numeral_of_digits h.1 (isDigit_of_denotes h), read_as (by decide) (by simp)]
      exact ⟨.bare h, fits⟩
    | @negative t n h =>
      have minus : numeral ('-' :: t) = (Text.word64? 10 ('-' :: t)).elim .malformed .value := rfl
      rw [minus, read_as (by decide) (by simp)]
      exact ⟨.minus h, fits⟩

theorem isName_iff {s : List Char} : isName s = true ↔ Name s := by
  cases s with
  | nil => simp [isName, Name]
  | cons c t =>
    simp only [isName, isNameStart, isNameChar, Name, List.head?_cons, Option.any_some,
      List.all_cons, Bool.and_eq_true, Bool.or_eq_true, beq_iff_eq, List.all_eq_true]
    constructor
    · rintro ⟨first, -, rest⟩
      exact ⟨c, t, rfl, first, rest⟩
    · rintro ⟨_, _, e, first, rest⟩
      cases e
      refine ⟨first, ?_, rest⟩
      exact first.imp_left fun letter => by simp [Char.isAlphanum, letter]

/-- No text is both a number and a name, whether the number fits or not. -/
theorem not_name_of_number {s : List Char} {i : Int} (h : Number s i) : ¬ Name s := by
  intro name
  obtain ⟨c, t, rfl, first⟩ := head_of_number h
  have start := toNat_of_isNameStart (Bool.and_eq_true_iff.mp (isName_iff.mpr name)).1
  rcases first with digit | rfl
  · have small : c.toNat ≤ 57 := (Char.isDigit_iff_toNat.mp digit).2
    omega
  · exact absurd start (by decide)

theorem value_eq_byte {s : List Char} {v : UInt8} :
    value s = .ok (.byte v) ↔ Number s v.toNat := by
  have small := v.toNat_lt
  constructor
  · intro read
    unfold value at read
    split at read
    · next i number =>
      split at read
      · next inside =>
        cases read
        have same : (i.toNat.toUInt8.toNat : Int) = i := by
          simp
          omega
        rw [same]
        exact (numeral_eq_value.mp number).1
      · cases read
    · cases read
    · split at read <;> cases read
  · intro h
    exact value_of_numeral (numeral_eq_value.mpr ⟨h, by unfold Fits; omega⟩)

theorem value_eq_outOfRange {s : List Char} {i : Int} :
    value s = .error (.valueOutOfRange i) ↔ Number s i ∧ Fits i ∧ ¬ (0 ≤ i ∧ i < 256) := by
  rw [← and_assoc, ← numeral_eq_value]
  constructor
  · intro read
    unfold value at read
    split at read
    · next j number =>
      split at read
      · cases read
      · next outside =>
        cases read
        exact ⟨number, outside⟩
    · cases read
    · split at read <;> cases read
  · rintro ⟨number, outside⟩
    rw [value, number]
    exact if_neg outside

theorem value_eq_label {s name : List Char} :
    value s = .ok (.label name) ↔ Name s ∧ name = Text.upper s := by
  rw [← isName_iff]
  constructor
  · intro read
    rcases value_cases read with ⟨b, i, e, -⟩ | ⟨e, named⟩
    · cases e
    · cases e
      exact ⟨named, rfl⟩
  · rintro ⟨named, rfl⟩
    exact value_of_isName named

/-- What is neither a number that fits nor a name is a mistake of syntax, however it is found. -/
theorem value_eq_syntaxError {s : List Char} :
    (∃ cause, value s = .error cause ∧ cause.kind = .syntaxError) ↔
      (∀ i, Number s i → ¬ Fits i) ∧ ¬ Name s := by
  constructor
  · rintro ⟨cause, read, kind⟩
    constructor
    · intro i h fits
      rw [value, numeral_eq_value.mpr ⟨h, fits⟩] at read
      dsimp only at read
      split at read
      · cases read
      · cases read
        cases kind
    · intro name
      rw [value_of_isName (isName_iff.mpr name)] at read
      cases read
  · rintro ⟨unfit, unnamed⟩
    unfold value
    split
    · next i number =>
      obtain ⟨h, fits⟩ := numeral_eq_value.mp number
      exact absurd fits (unfit i h)
    · exact ⟨_, rfl, rfl⟩
    · rw [if_neg (mt isName_iff.mp unnamed)]
      exact ⟨_, rfl, rfl⟩

section

variable {d : Draft} {n : Nat} {s : List Char}

theorem readValue_eq_error {cause : Cause} :
    d.readValue n s = .error cause ↔ value s = .error cause := by
  unfold Draft.readValue
  cases value s <;> simp [Except.map]

theorem noted_ne (p : Patch) : { d with pending := d.pending ++ [p] } ≠ d := by
  intro same
  have pending : d.pending ++ [p] = d.pending := congrArg Draft.pending same
  simp at pending

theorem readValue_eq_byte {v : UInt8} :
    d.readValue n s = .ok (d, v) ↔ value s = .ok (.byte v) := by
  unfold Draft.readValue
  rcases value s with cause | b | name <;> simp [Except.map, Draft.note, noted_ne]

theorem readValue_eq_label :
    d.readValue n s =
        .ok ({ d with pending := d.pending ++ [⟨d.output.length, Text.upper s, n⟩] }, 0) ↔
      value s = .ok (.label (Text.upper s)) := by
  unfold Draft.readValue
  rcases value s with cause | b | name <;> simp [Except.map, Draft.note, (noted_ne _).symm]

end

theorem register?_eq_some {s : List Char} {r : Nat} :
    register? s = some r ↔ r < 8 ∧ RegisterName s r := by
  constructor
  · intro read
    have named {c : Char} {t : List Char} (mark : c = 'R' ∨ c = 'r')
        (read : Text.below? 8 10 t = some r) : r < 8 ∧ RegisterName (c :: t) r := by
      obtain ⟨small, h | ⟨u, rfl, h⟩⟩ := (Text.below?_eq_some (by decide)).mp read
      · exact ⟨small, c, t, mark, .inl rfl, h⟩
      · exact ⟨small, c, u, mark, .inr rfl, h⟩
    unfold register? at read
    split at read
    · exact named (.inl rfl) read
    · exact named (.inr rfl) read
    · cases read
  · rintro ⟨small, c, t, mark, form, h⟩
    have number (u : List Char) : register? (c :: u) = Text.below? 8 10 u := by
      rcases mark with rfl | rfl <;> rfl
    rcases form with rfl | rfl
    · rw [number, Text.below?_eq_some (by decide)]
      exact ⟨small, .inl h⟩
    · rw [number, Text.below?_eq_some (by decide)]
      exact ⟨small, .inr ⟨t, rfl, h⟩⟩

theorem register_eq_ok {s : List Char} {r : UInt8} :
    register s = .ok (.byte r) ↔ r.toNat < 8 ∧ RegisterName s r.toNat := by
  rw [← register?_eq_some, register]
  cases read : register? s with
  | none => simp
  | some n =>
    have small := register?_lt read
    have same : n.toUInt8 = r ↔ n = r.toNat := by
      rw [← UInt8.toNat_inj]
      simp
      omega
    simp [same]

theorem register_eq_error {s : List Char} :
    register s = .error (.badRegister s) ↔ ∀ r < 8, ¬ RegisterName s r := by
  have none_named : (∀ r < 8, ¬ RegisterName s r) ↔ register? s = none := by
    rw [Option.eq_none_iff_forall_ne_some]
    simp [register?_eq_some]
  rw [none_named, register]
  cases register? s <;> simp

/-- The operands are recognised by their shapes. A value that is a number within a byte gives that
byte and no note, and a number in 64 bits that is none is out of range; a name is noted in capitals,
at the place of the next byte; everything else is a mistake of syntax, and no text is a number and a
name. A register is accepted exactly by its name. -/
theorem operands_recognised (d : Draft) (n : Nat) (s : List Char) :
    (∀ v : UInt8, d.readValue n s = .ok (d, v) ↔ Number s v.toNat) ∧
    (∀ i, d.readValue n s = .error (.valueOutOfRange i) ↔
      Number s i ∧ Fits i ∧ ¬ (0 ≤ i ∧ i ≤ 255)) ∧
    (d.readValue n s =
        .ok ({ d with pending := d.pending ++ [⟨d.output.length, Text.upper s, n⟩] }, 0) ↔
      Name s) ∧
    ((∃ cause, d.readValue n s = .error cause ∧ cause.kind = .syntaxError) ↔
      (∀ i, Number s i → ¬ Fits i) ∧ ¬ Name s) ∧
    ¬ ((∃ i, Number s i) ∧ Name s) ∧
    (∀ r : UInt8, register s = .ok (.byte r) ↔ r.toNat < 8 ∧ RegisterName s r.toNat) ∧
    (register s = .error (.badRegister s) ↔ ∀ r < 8, ¬ RegisterName s r) := by
  refine ⟨?_, ?_, ?_, ?_, ?_, fun r => register_eq_ok, register_eq_error⟩
  · intro v
    rw [readValue_eq_byte, value_eq_byte]
  · intro i
    have byte : i ≤ 255 ↔ i < 256 := by omega
    rw [readValue_eq_error, value_eq_outOfRange, byte]
  · rw [readValue_eq_label, value_eq_label]
    exact and_iff_left rfl
  · simp only [readValue_eq_error]
    exact value_eq_syntaxError
  · rintro ⟨⟨i, number⟩, name⟩
    exact not_name_of_number number name

end Ls8.Assembly
