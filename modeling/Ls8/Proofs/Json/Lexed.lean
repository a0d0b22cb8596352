import Ls8.Json.Lexer
import Ls8.Json.Writer
import Ls8.Proofs.Text.Numeral

/-! What is written is cut into tokens again. White space may stand before any token, and a word has
to be followed by a character that cannot belong to it. -/
namespace Ls8.Json

open Text (decimal decimalInt)

def finish : Mode × List Token → Option (List Token)
  | (.between, done) => some done.reverse
  | (.word w, done) => (word? w.reverse).map fun last => (.scalar last :: done).reverse
  | _ => none

def lex (mode : Mode) (done : List Token) (s : List Char) : Option (List Token) :=
  (s.foldlM feed (mode, done)).bind finish

def EndsWord (s : List Char) : Prop := ∀ c ∈ s.head?, isWordChar c = false

/-- What has been collected of a string spells the front of it, last character first, and does not
end in half a surrogate pair. -/
def Spelled (parts : List Part) (front : List Char) : Prop :=
  ∀ rest, spell [] (parts.reverse ++ rest) = spell front rest

section

variable {mode : Mode} {done : List Token} {s t w gap front digits : List Char} {c : Char}
  {parts : List Part} {n : Nat}

theorem tokens?_eq (s : List Char) : tokens? s = lex .between [] s := by
  unfold tokens? lex
  cases s.foldlM feed (.between, []) with
  | none => rfl
  | some state =>
    obtain ⟨mode, done⟩ := state
    cases mode <;> rfl

theorem lex_cons {next : Mode} {ts : List Token} (h : advance mode c = some (ts, next)) :
    lex mode done (c :: s) = lex next (ts.reverse ++ done) s := by
  simp [lex, feed, h]

theorem lex_stuck (h : advance mode c = none) : lex mode done (c :: s) = none := by
  simp [lex, feed, h]

theorem isSpace_of_isWordChar (h : isWordChar c = true) : isSpace c = false := by
  apply Bool.eq_false_iff.mpr
  intro space
  simp only [isSpace, Bool.or_eq_true, beq_iff_eq] at space
  rcases space with ((rfl | rfl) | rfl) | rfl <;> exact absurd h (by decide)

theorem endsWord_cons (h : isWordChar c = false) : EndsWord (c :: s) := by
  intro d first
  cases first
  exact h

theorem endsWord_gap (blank : ∀ c ∈ gap, isSpace c = true) (h : EndsWord s) :
    EndsWord (gap ++ s) := by
  cases gap with
  | nil => exact h
  | cons c gap =>
    apply endsWord_cons
    apply Bool.eq_false_iff.mpr
    intro letter
    have other := isSpace_of_isWordChar letter
    rw [blank c List.mem_cons_self] at other
    cases other

theorem lex_gap (blank : ∀ c ∈ gap, isSpace c = true) :
    lex .between done (gap ++ s) = lex .between done s := by
  induction gap with
  | nil => rfl
  | cons c gap ih =>
    have space : advance .between c = some ([], .between) := if_pos (blank c List.mem_cons_self)
    rw [List.cons_append, lex_cons space]
    exact ih fun d later => blank d (List.mem_cons_of_mem c later)

theorem lex_rest {last : Scalar} (letters : ∀ c ∈ w, isWordChar c = true)
    (known : word? (front.reverse ++ w) = some last) (ends : EndsWord s) :
    lex (.word front) done (w ++ s) = lex .between (.scalar last :: done) s := by
  induction w generalizing front with
  | nil =>
    rw [List.append_nil] at known
    cases s with
    | nil => simp [lex, finish, known]
    | cons c s =>
      have other := ends c rfl
      have closed : advance (.word front) c =
          (advance .between c).map fun begun => (.scalar last :: begun.1, begun.2) := by
        simp only [advance, other, known]
        cases start c <;> rfl
      -- The character that ends the word begins what follows it, or nothing at all.
      cases next : advance .between c with
      | none =>
        rw [next] at closed
        rw [List.nil_append, lex_stuck closed, lex_stuck next]
      | some begun =>
        obtain ⟨ts, mode⟩ := begun
        rw [next] at closed
        rw [List.nil_append, lex_cons closed, lex_cons next]
        simp
  | cons c w ih =>
    have letter : advance (.word front) c = some ([], .word (c :: front)) :=
      if_pos (letters c List.mem_cons_self)
    rw [List.cons_append, lex_cons letter]
    apply ih (fun d later => letters d (List.mem_cons_of_mem c later))
    simpa using known

theorem lex_word {last : Scalar} (letters : ∀ c ∈ w, isWordChar c = true)
    (known : word? w = some last) (ends : EndsWord s) :
    lex .between done (w ++ s) = lex .between (.scalar last :: done) s := by
  cases w with
  | nil =>
    have no_word : word? [] = none := by decide
    rw [no_word] at known
    cases known
  | cons c w =>
    have letter := letters c List.mem_cons_self
    have first : advance .between c = some ([], .word [c]) := by
      simp [advance, start, letter, isSpace_of_isWordChar letter]
    rw [List.cons_append, lex_cons first]
    exact lex_rest (fun d later => letters d (List.mem_cons_of_mem c later)) known ends

theorem lex_escaped {letter : Char} (h : escaped? letter = some c) :
    lex (.string parts) done ('\\' :: letter :: s) = lex (.string (.char c :: parts)) done s := by
  have escape : advance (.string parts) '\\' = some ([], .escape parts) := rfl
  have other : letter ≠ 'u' := by
    rintro rfl
    cases h
  have meant : advance (.escape parts) letter = some ([], .string (.char c :: parts)) := by
    simp [advance, other, h]
  rw [lex_cons escape]
  exact lex_cons meant

theorem lex_code (four : digits.length = 4) (value : Text.natural? 16 digits = some n) :
    lex (.string parts) done ('\\' :: 'u' :: digits ++ s) =
      lex (.string (.code n :: parts)) done s := by
  obtain ⟨a, b, c, d, rfl⟩ := List.length_eq_four.mp four
  have last : advance (.code parts [c, b, a]) d = some ([], .string (.code n :: parts)) := by
    simp [advance, value]
  -- The first three digits are collected, the fourth completes the number.
  exact lex_cons last

theorem spell_code (low : n < 0xD800) {rest : List Part} :
    spell front (.code n :: rest) = spell (Char.ofNat n :: front) rest := by
  have whole : ¬ 0xD800 ≤ n := Nat.not_le_of_lt low
  cases rest with
  | nil => simp [spell, whole]
  | cons next rest => cases next <;> simp [spell, whole]

theorem Spelled.char (h : Spelled parts front) (c : Char) :
    Spelled (.char c :: parts) (c :: front) := by
  intro rest
  rw [List.reverse_cons, List.append_assoc, h]
  rfl

theorem Spelled.code (h : Spelled parts front) (low : n < 0xD800) :
    Spelled (.code n :: parts) (Char.ofNat n :: front) := by
  intro rest
  rw [List.reverse_cons, List.append_assoc, h]
  exact spell_code low

theorem length_codeEscape : ∀ n < 0x20, (Text.padLeft '0' 4 (Nat.toDigits 16 n)).length = 4 := by
  decide

theorem natural?_codeEscape :
    ∀ n < 0x20, Text.natural? 16 (Text.padLeft '0' 4 (Nat.toDigits 16 n)) = some n := by
  decide

/-- However a character is written, it is read as one part more of the string. -/
theorem lex_writeChar (h : Spelled parts front) (c : Char) : ∃ parts',
    Spelled parts' (c :: front) ∧ ∀ done s,
      lex (.string parts) done (writeChar c ++ s) = lex (.string parts') done s := by
  unfold writeChar
  split
  case h_8 quote slash _ _ _ _ _ =>
    split
    next control =>
      have low : c.toNat < 0xD800 := Nat.lt_trans control (by decide)
      have code := h.code low
      rw [Char.ofNat_toNat] at code
      exact ⟨_, code, fun done s =>
        lex_code (length_codeEscape _ control) (natural?_codeEscape _ control)⟩
    next plain =>
      have itself : advance (.string parts) c = some ([], .string (.char c :: parts)) := by
        simp [advance, beq_eq_false_iff_ne.mpr quote, beq_eq_false_iff_ne.mpr slash, plain]
      exact ⟨_, h.char c, fun done s => lex_cons itself⟩
  all_goals exact ⟨_, h.char _, fun done s => lex_escaped rfl⟩

theorem lex_chars (h : Spelled parts front) :
    lex (.string parts) done (t.flatMap writeChar ++ '"' :: s) =
      lex .between (.scalar (.string (some (front.reverse ++ t))) :: done) s := by
  induction t generalizing parts front with
  | nil =>
    have spelled := h []
    rw [List.append_nil] at spelled
    have close : advance (.string parts) '"' =
        some ([.scalar (.string (some front.reverse))], .between) := by
      simp [advance, spelled, spell]
    rw [List.append_nil]
    exact lex_cons close
  | cons c t ih =>
    obtain ⟨parts', more, read⟩ := lex_writeChar h c
    rw [List.flatMap_cons, List.append_assoc, read, ih more]
    simp

theorem lex_writeText (t : Text) :
    lex .between done (writeText t ++ s) = lex .between (.scalar (.string t) :: done) s := by
  have opening : advance .between '"' = some ([], .string []) := rfl
  cases t with
  | some t =>
    have empty : Spelled [] [] := fun rest => rfl
    rw [writeText, List.append_assoc, List.cons_append, lex_cons opening]
    exact lex_chars empty
  | none =>
    have four : (Text.padLeft '0' 4 (Nat.toDigits 16 0xD800)).length = 4 := by decide
    have value : Text.natural? 16 (Text.padLeft '0' 4 (Nat.toDigits 16 0xD800)) = some 0xD800 := by
      decide
    rw [writeText, List.append_assoc, List.cons_append, lex_cons opening]
    exact lex_code four value

theorem no_leading_zero (n : Nat) :
    ((decimal n).head? == some '0' && (decimal n).length != 1) = false := by
  rcases Nat.eq_zero_or_pos n with rfl | positive
  · decide
  · simp [Text.decimal_head positive]

theorem takeWhile_decimal (n : Nat) : (decimal n).takeWhile Char.isDigit = decimal n := by
  apply List.takeWhile_eq_self_iff.mpr
  exact fun c => Text.isDigit_of_mem_decimal

theorem dropWhile_decimal (n : Nat) : (decimal n).dropWhile Char.isDigit = [] := by
  apply List.dropWhile_eq_nil_iff.mpr
  exact fun c => Text.isDigit_of_mem_decimal

theorem number?_decimal (n : Nat) : number? (decimal n) = some (.int n) := by
  have unsigned : ((decimal n).head? == some '-') = false := by
    apply beq_eq_false_iff_ne.mpr
    intro sign
    have digit := Text.isDigit_of_mem_decimal (List.mem_of_mem_head? sign)
    cases digit
  simp [number?, unsigned, takeWhile_decimal, dropWhile_decimal, no_leading_zero,
    Text.natural?_decimal, isTail, isExponent]

theorem number?_negative (positive : 0 < n) : number? ('-' :: decimal n) = some (.int (-n)) := by
  have other : ¬ n = 0 := Nat.ne_of_gt positive
  simp [number?, takeWhile_decimal, dropWhile_decimal, no_leading_zero,
    Text.natural?_decimal, isTail, isExponent, other]

theorem number?_decimalInt (n : Int) : number? (decimalInt n) = some (.int n) := by
  unfold decimalInt
  split
  next below =>
    have magnitude : -(n.natAbs : Int) = n := by omega
    rw [number?_negative (by omega), magnitude]
  next above =>
    have magnitude : (n.natAbs : Int) = n := by omega
    rw [number?_decimal, magnitude]

theorem mem_decimalInt {n : Int} (h : c ∈ decimalInt n) : c.isDigit = true ∨ c = '-' := by
  unfold decimalInt at h
  split at h
  · rcases List.mem_cons.mp h with sign | rest
    · exact .inr sign
    · exact .inl (Text.isDigit_of_mem_decimal rest)
  · exact .inl (Text.isDigit_of_mem_decimal h)

theorem isWordChar_of_mem_decimalInt {n : Int} (h : c ∈ decimalInt n) : isWordChar c = true := by
  rcases mem_decimalInt h with digit | rfl
  · simp [isWordChar, Char.isAlphanum, digit]
  · decide

theorem word?_decimalInt (n : Int) : word? (decimalInt n) = some (.int n) := by
  have other : ∀ {name : List Char} (c : Char), c ∈ name → ¬ (c.isDigit = true ∨ c = '-') →
      decimalInt n ≠ name := by
    rintro name c member neither rfl
    exact neither (mem_decimalInt member)
  rw [word?, if_neg (other 'n' (by decide) (by decide)), if_neg (other 't' (by decide) (by decide)),
    if_neg (other 'f' (by decide) (by decide))]
  exact number?_decimalInt n

theorem lex_scalar {v : Scalar} (whole : ∀ literal, v ≠ .real literal) (ends : EndsWord s) :
    lex .between done (v.write ++ s) = lex .between (.scalar v :: done) s := by
  cases v with
  | null => exact lex_word (List.all_eq_true.mp rfl) rfl ends
  | bool b =>
    cases b with
    | true => exact lex_word (List.all_eq_true.mp rfl) rfl ends
    | false => exact lex_word (List.all_eq_true.mp rfl) rfl ends
  | int n => exact lex_word (fun c => isWordChar_of_mem_decimalInt) (word?_decimalInt n) ends
  | real literal => exact absurd rfl (whole literal)
  | string t => exact lex_writeText t

end

end Ls8.Json
