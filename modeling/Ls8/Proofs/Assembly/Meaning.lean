import Ls8.Proofs.Assembly.Layout
import Ls8.Proofs.Assembly.Recognised

/-! What a line means by its words: how many bytes it takes, which ones it gives, and what is wrong
with it where it stands. The readings of a line give just that. -/
namespace Ls8.Assembly

open Text (Capital Fits)

inductive Slot where
  | register
  | value

def slots : Opcode → List Slot
  | .hlt => []
  | .prn | .jmp | .jeq | .jne | .not => [.register]
  | .ldi => [.register, .value]
  | .cmp | .and | .or | .shl | .shr | .mod | .xor => [.register, .register]

inductive Operand : Slot → List Char → Cell → Prop where
  | register {s} {r : UInt8} (small : r.toNat < 8) (h : RegisterName s r.toNat) :
      Operand .register s (.byte r)
  | number {s} {v : UInt8} (h : Number s v.toNat) : Operand .value s (.byte v)
  | name {s} (h : Name s) : Operand .value s (.label (Text.upper s))

inductive Filled : List Slot → List (List Char) → List Cell → Prop where
  | nil : Filled [] [] []
  | cons {k s c slots given cells} (h : Operand k s c) (more : Filled slots given cells) :
      Filled (k :: slots) (s :: given) (c :: cells)

/-- The bytes of a line that is well formed. -/
inductive Yields : Line → List Cell → Prop where
  | nothing {label} : Yields ⟨label, none⟩ []
  | data {label s c} (h : Operand .value s c) : Yields ⟨label, some ("DB".toList, [s])⟩ [c]
  | code {label name given op cells} (called : Names name op) (h : Filled (slots op) given cells) :
      Yields ⟨label, some (name, given)⟩ (.byte op.byte :: cells)

/-- The size of a line, which its mnemonic decides. -/
inductive Sizes : Line → Nat → Prop where
  | nothing {label} : Sizes ⟨label, none⟩ 0
  | data {label given} : Sizes ⟨label, some ("DB".toList, given)⟩ 1
  | code {label name given op} (called : Names name op) :
      Sizes ⟨label, some (name, given)⟩ (1 + (slots op).length)

/-- A text that begins like a decimal number, and not like one in another notation. -/
def Decimal (s : List Char) : Prop :=
  (∃ c t, s = c :: t ∧ (c.isDigit = true ∨ c = '-')) ∧
    ∀ x t, s = '0' :: x :: t → x ≠ 'x' ∧ x ≠ 'X' ∧ x ≠ 'b' ∧ x ≠ 'B'

def NoNumber (s : List Char) : Prop := ∀ i, Number s i → ¬ Fits i

inductive Mistake : Slot → List Char → Cause → Prop where
  | register {s} (h : ∀ r < 8, ¬ RegisterName s r) : Mistake .register s (.badRegister s)
  | range {s i} (h : Number s i) (fits : Fits i) (out : ¬ (0 ≤ i ∧ i < 256)) :
      Mistake .value s (.valueOutOfRange i)
  | number {s} (h : NoNumber s) (shape : Decimal s) : Mistake .value s (.badNumber s)
  | operand {s} (h : NoNumber s) (shape : ¬ Decimal s) (other : ¬ Name s) :
      Mistake .value s (.badOperand s)

/-- Operands that go to the places from `a` on come to a mistake, or to the end of memory. -/
inductive Stuck : Nat → List (Slot × List Char) → Cause → Prop where
  | mistake {a k s more cause} (h : Mistake k s cause) : Stuck a ((k, s) :: more) cause
  | full {a k s c more} (h : Operand k s c) (full : 256 ≤ a) : Stuck a ((k, s) :: more) .tooLarge
  | later {a k s c more cause} (h : Operand k s c) (room : a < 256)
      (rest : Stuck (a + 1) more cause) : Stuck a ((k, s) :: more) cause

/-- What is wrong with a statement whose first byte goes to `a`. -/
inductive Fails (a : Nat) : List Char × List (List Char) → Cause → Prop where
  | dataCount {given} (count : given.length ≠ 1) : Fails a ("DB".toList, given) .dataCount
  | data {s cause} (h : Stuck a [(.value, s)] cause) : Fails a ("DB".toList, [s]) cause
  | unknown {name given} (other : name ≠ "DB".toList) (h : ∀ op, ¬ Names name op) :
      Fails a (name, given) (.unknownMnemonic name)
  | count {name given op} (called : Names name op) (count : given.length ≠ (slots op).length) :
      Fails a (name, given) (.operandCount op given.length)
  | full {name given op} (called : Names name op) (count : given.length = (slots op).length)
      (full : 256 ≤ a) : Fails a (name, given) .tooLarge
  | operands {name given op cause} (called : Names name op)
      (count : given.length = (slots op).length) (room : a < 256)
      (h : Stuck (a + 1) ((slots op).zip given) cause) : Fails a (name, given) cause

/-- What is wrong with a line after `a` bytes and the labels `earlier`. Its label is looked at
before its statement. -/
inductive Wrong (earlier : List (List Char)) (a : Nat) : Line → Cause → Prop where
  | empty {statement} : Wrong earlier a ⟨some [], statement⟩ .emptyLabel
  | high {label statement} (called : label ≠ []) (full : 256 ≤ a) :
      Wrong earlier a ⟨some label, statement⟩ .tooLarge
  | again {label statement} (called : label ≠ []) (room : a < 256) (twice : label ∈ earlier) :
      Wrong earlier a ⟨some label, statement⟩ (.duplicateLabel label)
  | statement {line words cause} (has : line.statement = some words)
      (placed : ∀ label, line.label = some label → label ≠ [] ∧ a < 256 ∧ label ∉ earlier)
      (h : Fails a words cause) : Wrong earlier a line cause

def Slot.read : Slot → List Char → Except Cause Cell
  | register => Assembly.register
  | value => Assembly.value

section

variable {s : List Char} {c : Cell} {k : Slot} {cause : Cause}

theorem operand_iff : k.read s = .ok c ↔ Operand k s c := by
  constructor
  · intro read
    cases k with
    | register =>
      cases c with
      | byte r =>
        obtain ⟨small, h⟩ := register_eq_ok.mp read
        exact .register small h
      | label name =>
        change register s = _ at read
        unfold register at read
        split at read <;> cases read
    | value =>
      cases c with
      | byte v => exact .number (value_eq_byte.mp read)
      | label name =>
        obtain ⟨h, rfl⟩ := value_eq_label.mp read
        exact .name h
  · intro h
    cases h with
    | register small h => exact register_eq_ok.mpr ⟨small, h⟩
    | number h => exact value_eq_byte.mpr h
    | name h => exact value_eq_label.mpr ⟨h, rfl⟩

theorem noNumber_iff : NoNumber s ↔ ∀ i, numeral s ≠ .value i := by
  simp only [NoNumber, ne_eq, numeral_eq_value, not_and]

theorem numeral_of_decimal (h : Decimal s) :
    numeral s = (Text.word64? 10 s).elim .malformed .value := by
  obtain ⟨⟨c, t, rfl, first⟩, other⟩ := h
  unfold numeral
  split
  · next e => exact absurd rfl (other _ _ e).1
  · next e => exact absurd rfl (other _ _ e).2.1
  · next e => exact absurd rfl (other _ _ e).2.2.1
  · next e => exact absurd rfl (other _ _ e).2.2.2
  · next e =>
    cases e
    rw [if_pos (by simpa using first)]
  · next e => cases e

theorem decimal_of_malformed (h : numeral s = .malformed) : Decimal s := by
  have none_malformed (r : Option Int) : r.elim .absent .value ≠ Numeral.malformed := by
    cases r <;> simp
  unfold numeral at h
  split at h
  · exact absurd h (none_malformed _)
  · exact absurd h (none_malformed _)
  · exact absurd h (none_malformed _)
  · exact absurd h (none_malformed _)
  · next c t hex hex' bin bin' =>
    split at h
    · next first =>
      refine ⟨⟨c, t, rfl, by simpa using first⟩, ?_⟩
      intro x u e
      cases e
      refine ⟨?_, ?_, ?_, ?_⟩ <;> rintro rfl
      · exact hex u rfl rfl
      · exact hex' u rfl rfl
      · exact bin u rfl rfl
      · exact bin' u rfl rfl
    · cases h
  · cases h

theorem numeral_eq_malformed : numeral s = .malformed ↔ NoNumber s ∧ Decimal s := by
  rw [noNumber_iff]
  constructor
  · intro h
    refine ⟨fun i e => ?_, decimal_of_malformed h⟩
    rw [h] at e
    cases e
  · rintro ⟨none_read, shape⟩
    rw [numeral_of_decimal shape] at none_read ⊢
    cases read : Text.word64? 10 s with
    | none => rfl
    | some i => exact absurd (by rw [read]; rfl) (none_read i)

theorem numeral_eq_absent : numeral s = .absent ↔ NoNumber s ∧ ¬ Decimal s := by
  have shape := numeral_eq_malformed (s := s)
  rw [noNumber_iff] at shape ⊢
  cases read : numeral s <;> simp_all

theorem mistake_iff : k.read s = .error cause ↔ Mistake k s cause := by
  constructor
  · intro read
    cases k with
    | register =>
      change register s = _ at read
      have wrong : cause = .badRegister s := by
        unfold register at read
        split at read <;> cases read
        rfl
      rw [wrong] at read ⊢
      exact .register (register_eq_error.mp read)
    | value =>
      change value s = _ at read
      have failed := read
      unfold value at read
      split at read
      · split at read
        · cases read
        · cases read
          obtain ⟨h, fits, out⟩ := value_eq_outOfRange.mp failed
          exact .range h fits out
      · next malformed =>
        cases read
        obtain ⟨h, shape⟩ := numeral_eq_malformed.mp malformed
        exact .number h shape
      · next absent =>
        split at read
        · cases read
        · next unnamed =>
          cases read
          obtain ⟨h, shape⟩ := numeral_eq_absent.mp absent
          exact .operand h shape (mt isName_iff.mpr unnamed)
  · intro h
    cases h with
    | register h => exact register_eq_error.mpr h
    | range h fits out => exact value_eq_outOfRange.mpr ⟨h, fits, out⟩
    | number h shape => simp only [Slot.read, value, numeral_eq_malformed.mpr ⟨h, shape⟩]
    | operand h shape other =>
      simp only [Slot.read, value, numeral_eq_absent.mpr ⟨h, shape⟩]
      exact if_neg (mt isName_iff.mp other)

end

section

variable {name : List Char} {given : List (List Char)} {op : Opcode} {cells : List Cell}
  {line : Line} {cause : Cause} {a : Nat}

theorem length_slots (op : Opcode) : (slots op).length = op.operandCount := by
  cases op <;> decide

theorem opcode?_of_names (h : Names name op) : opcode? name = some op := by
  rcases h with rfl | ⟨rfl, rfl⟩ | ⟨rfl, rfl⟩
  · exact opcode?_mnemonic op
  · decide
  · decide

theorem ne_data_of_names (h : Names name op) : name ≠ "DB".toList := by
  rcases h with rfl | ⟨rfl, -⟩ | ⟨rfl, -⟩
  · exact mnemonic_ne_data op
  · decide
  · decide

theorem mapIdx_operand_slots (count : given.length = (slots op).length) :
    given.mapIdx (operand op) = ((slots op).zip given).map fun p => p.1.read p.2 := by
  cases op with
  | hlt =>
    obtain rfl := List.length_eq_zero_iff.mp count
    rfl
  | prn | jmp | jeq | jne | not =>
    obtain ⟨s, rfl⟩ := List.length_eq_one_iff.mp count
    rfl
  | ldi | cmp | and | or | shl | shr | mod | xor =>
    obtain ⟨s, t, rfl⟩ := List.length_eq_two.mp count
    rfl

theorem readings_of_names (h : Names name op) (count : given.length = (slots op).length) :
    readings name given =
      .ok (.byte op.byte) :: ((slots op).zip given).map fun p => p.1.read p.2 := by
  unfold readings
  simp only [if_neg (ne_data_of_names h), opcode?_of_names h,
    if_pos (count.trans (length_slots op)), mapIdx_operand_slots count]

theorem filled_iff {kinds : List Slot} : Filled kinds given cells ↔
    given.length = kinds.length ∧
      ((kinds.zip given).map fun p => p.1.read p.2) = cells.map .ok := by
  induction kinds generalizing given cells with
  | nil =>
    constructor
    · intro h
      cases h
      exact ⟨rfl, rfl⟩
    · rintro ⟨count, read⟩
      obtain rfl := List.length_eq_zero_iff.mp count
      obtain rfl := List.map_eq_nil_iff.mp read.symm
      exact .nil
  | cons k kinds ih =>
    constructor
    · intro h
      cases h with
      | cons h more =>
        obtain ⟨count, read⟩ := ih.mp more
        refine ⟨congrArg (· + 1) count, ?_⟩
        rw [List.zip_cons_cons, List.map_cons, operand_iff.mpr h, read, List.map_cons]
    · rintro ⟨count, read⟩
      cases given with
      | nil => cases count
      | cons s given =>
        rw [List.zip_cons_cons, List.map_cons] at read
        obtain ⟨c, cells, rfl, first, rest⟩ := List.map_eq_cons_iff.mp read.symm
        exact .cons (operand_iff.mp first.symm) (ih.mpr ⟨Nat.succ.inj count, rest.symm⟩)

theorem yields_iff (capital : ∀ words, line.statement = some words → Capital words.1) :
    Yields line cells ↔ line.readings = cells.map .ok := by
  obtain ⟨label, _ | ⟨name, given⟩⟩ := line
  · constructor
    · intro h
      cases h
      rfl
    · intro read
      obtain rfl := List.map_eq_nil_iff.mp read.symm
      exact .nothing
  · change _ ↔ readings name given = _
    constructor
    · intro h
      cases h with
      | data h => exact congrArg (fun r => [r]) (operand_iff.mpr h)
      | code called h =>
        obtain ⟨count, read⟩ := filled_iff.mp h
        rw [readings_of_names called count, read, List.map_cons]
    · intro read
      unfold readings at read
      split at read
      · next data =>
        subst data
        split at read
        · obtain ⟨c, cells, rfl, first, rest⟩ := List.map_eq_cons_iff.mp read.symm
          obtain rfl := List.map_eq_nil_iff.mp rest
          exact .data (operand_iff.mp first.symm)
        · obtain ⟨c, -, -, first, -⟩ := List.map_eq_cons_iff.mp read.symm
          cases first
      · split at read
        · obtain ⟨c, -, -, first, -⟩ := List.map_eq_cons_iff.mp read.symm
          cases first
        · next op known =>
          split at read
          · next count =>
            rw [← length_slots] at count
            rw [mapIdx_operand_slots count] at read
            obtain ⟨c, cells, rfl, first, rest⟩ := List.map_eq_cons_iff.mp read.symm
            cases first
            exact .code (names_of_opcode? (capital _ rfl) known)
              (filled_iff.mpr ⟨count, rest.symm⟩)
          · obtain ⟨c, -, -, first, -⟩ := List.map_eq_cons_iff.mp read.symm
            cases first

theorem stuck_iff {parts : List (Slot × List Char)} :
    Stuck a parts cause ↔ blocked a (parts.map fun p => p.1.read p.2) = some cause := by
  induction parts generalizing a with
  | nil =>
    constructor
    · intro h
      cases h
    · intro h
      cases h
  | cons part parts ih =>
    obtain ⟨k, s⟩ := part
    rw [List.map_cons]
    constructor
    · intro h
      cases h with
      | mistake h => simp [blocked, mistake_iff.mpr h]
      | full h full =>
        rw [operand_iff.mpr h, blocked_ok, if_neg (Nat.not_lt_of_le full)]
      | later h room rest => rw [operand_iff.mpr h, blocked_ok, if_pos room, ih.mp rest]
    · intro stuck
      cases read : k.read s with
      | error found =>
        simp only [read, blocked, List.zipIdx_cons, List.findSome?_cons] at stuck
        cases stuck
        exact .mistake (mistake_iff.mp read)
      | ok c =>
        rw [read, blocked_ok] at stuck
        split at stuck
        · next room => exact .later (operand_iff.mp read) room (ih.mpr stuck)
        · next full =>
          cases stuck
          exact .full (operand_iff.mp read) (Nat.le_of_not_lt full)

theorem blocked_error (a : Nat) (cause : Cause) (rs : Readings) :
    blocked a (.error cause :: rs) = some cause := by
  simp [blocked]

theorem readings_of_count (count : given.length ≠ 1) :
    readings "DB".toList given = [.error .dataCount] := by
  match given with
  | [] => rfl
  | [s] => exact absurd rfl count
  | s :: t :: more => rfl

theorem fails_iff (capital : Capital name) :
    Fails a (name, given) cause ↔ blocked a (readings name given) = some cause := by
  constructor
  · intro h
    cases h with
    | dataCount count => rw [readings_of_count count, blocked_error]
    | data h => exact stuck_iff.mp h
    | unknown other h =>
      have none_named : opcode? name = none :=
        Option.eq_none_iff_forall_ne_some.mpr fun op known => h op (names_of_opcode? capital known)
      simp only [readings, if_neg other, none_named, blocked_error]
    | count called count =>
      rw [length_slots] at count
      simp only [readings, if_neg (ne_data_of_names called), opcode?_of_names called,
        if_neg count, blocked_error]
    | full called count full =>
      rw [readings_of_names called count, blocked_ok, if_neg (Nat.not_lt_of_le full)]
    | operands called count room h =>
      rw [readings_of_names called count, blocked_ok, if_pos room, ← stuck_iff]
      exact h
  · intro stuck
    by_cases data : name = "DB".toList
    · subst data
      by_cases count : given.length = 1
      · obtain ⟨s, rfl⟩ := List.length_eq_one_iff.mp count
        exact .data (stuck_iff.mpr stuck)
      · rw [readings_of_count count, blocked_error] at stuck
        cases stuck
        exact .dataCount count
    · cases known : opcode? name with
      | none =>
        simp only [readings, if_neg data, known, blocked_error] at stuck
        cases stuck
        refine .unknown data fun op called => ?_
        rw [opcode?_of_names called] at known
        cases known
      | some op =>
        have called := names_of_opcode? capital known
        by_cases count : given.length = (slots op).length
        · rw [readings_of_names called count, blocked_ok] at stuck
          split at stuck
          · next room => exact .operands called count room (stuck_iff.mpr stuck)
          · next full =>
            cases stuck
            exact .full called count (Nat.le_of_not_lt full)
        · have other := count
          rw [length_slots] at other
          simp only [readings, if_neg data, known, if_neg other, blocked_error] at stuck
          cases stuck
          exact .count called count

theorem wrong_of_misplaced {earlier : List (List Char)} {label : List Char}
    {statement : Option (List Char × List (List Char))}
    (wrong : misplaced earlier a label = some cause) :
    Wrong earlier a ⟨some label, statement⟩ cause := by
  unfold misplaced at wrong
  split at wrong
  · next empty =>
    cases wrong
    exact empty ▸ .empty
  · next called =>
    split at wrong
    · next full =>
      cases wrong
      exact .high called full
    · next room =>
      split at wrong
      · next twice =>
        cases wrong
        exact .again called (Nat.lt_of_not_le room) twice
      · cases wrong

theorem wrong_iff {earlier : List (List Char)}
    (capital : ∀ words, line.statement = some words → Capital words.1) :
    Wrong earlier a line cause ↔ line.fault earlier a = some cause := by
  have clear : line.label.bind (misplaced earlier a) = none ↔
      ∀ label, line.label = some label → label ≠ [] ∧ a < 256 ∧ label ∉ earlier := by
    simp only [Option.bind_eq_none_iff, misplaced_eq_none]
  have failing (words) (has : line.statement = some words) :
      Fails a words cause ↔ blocked a line.readings = some cause := by
    rw [Line.readings, has]
    exact fails_iff (capital words has)
  rw [Line.fault, Option.or_eq_some_iff, clear]
  constructor
  · intro h
    cases h with
    | empty => exact .inl rfl
    | high called full => exact .inl (by simp [misplaced, called, full])
    | again called room twice =>
      exact .inl (by simp [misplaced, called, Nat.not_le_of_lt room, twice])
    | statement has placed h => exact .inr ⟨placed, (failing _ has).mp h⟩
  · rintro (wrong | ⟨placed, stuck⟩)
    · obtain ⟨_ | label, statement⟩ := line
      · cases wrong
      · exact wrong_of_misplaced wrong
    · cases has : line.statement with
      | none =>
        rw [Line.readings, has] at stuck
        cases stuck
      | some words => exact .statement has placed ((failing _ has).mpr stuck)

end

end Ls8.Assembly
