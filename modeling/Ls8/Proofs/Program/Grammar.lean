import Ls8.Program
import Ls8.Proofs.Text.Radix

/-! The grammar of program text. Only the lines with something before their comment count, each of
them has to be a byte in binary, and the memory has room for 256 of them; the first line that is no
byte is reported by its number, unless the room has run out before it. -/
namespace Ls8.Program

open Text (Denotes)

/-- The lines that give a byte, or should, with their numbers; the lines count from `n`. -/
def significant (n : Nat) (lines : List (List Char)) : List (List Char × Nat) :=
  (lines.zipIdx n).filter fun l => decide (value l.1 ≠ [])

/-- The line gives a byte: binary digits, at least one of them, make a number that fits. -/
def Gives (line : List Char) (b : UInt8) : Prop := Denotes 2 (value line) b.toNat

def WellFormed (line : List Char) : Prop := ∃ b, Gives line b

def reason (s : List Char) : BadByte :=
  if ∀ c ∈ s, c = '0' ∨ c = '1' then .tooWide s else .notBinary s

theorem binary_iff {s : List Char} :
    s.all (fun c => c == '0' || c == '1') = true ↔ ∀ c ∈ s, c = '0' ∨ c = '1' := by
  simp

theorem binary_of_denotes {s : List Char} {n : Nat} (h : Denotes 2 s n) :
    ∀ c ∈ s, c = '0' ∨ c = '1' := by
  intro c member
  obtain ⟨d, digit⟩ := Option.isSome_iff_exists.mp (Text.digit?_of_mem (by decide) h member)
  obtain ⟨small, same⟩ := (Text.digit?_eq_some (by decide)).mp digit
  have two : d = 0 ∨ d = 1 := by omega
  rcases two with rfl | rfl
  · exact .inl (same.elim id id)
  · exact .inr (same.elim id id)

theorem byte_eq_ok {s : List Char} {b : UInt8} : byte s = .ok b ↔ Denotes 2 s b.toNat := by
  constructor
  · intro read
    unfold byte at read
    split at read
    · split at read
      · next n found =>
        cases read
        obtain ⟨number, small⟩ := Option.filter_eq_some_iff.mp found
        have same : n.toUInt8.toNat = n := by
          simpa using of_decide_eq_true small
        rw [same]
        exact (Text.natural?_eq_some (by decide)).mp number
      · cases read
    · cases read
  · intro h
    have number : (Text.natural? 2 s).filter (· < 256) = some b.toNat :=
      Option.filter_eq_some_iff.mpr
        ⟨(Text.natural?_eq_some (by decide)).mpr h, decide_eq_true b.toNat_lt⟩
    rw [byte, if_pos (binary_iff.mpr (binary_of_denotes h)), number]
    simp

theorem byte_cases (s : List Char) : (∃ b, byte s = .ok b) ∨ byte s = .error (reason s) := by
  unfold byte reason
  simp only [← binary_iff]
  split
  · split
    · exact .inl ⟨_, rfl⟩
    · exact .inr rfl
  · exact .inr rfl

instance (line : List Char) : Decidable (WellFormed line) :=
  decidable_of_iff ((byte (value line)).toOption.isSome = true) (by
    simp only [WellFormed, Gives, ← byte_eq_ok]
    cases byte (value line) <;> simp [Except.toOption])

theorem byte_of_malformed {line : List Char} (h : ¬ WellFormed line) :
    byte (value line) = .error (reason (value line)) :=
  (byte_cases (value line)).resolve_left fun ⟨b, read⟩ => h ⟨b, byte_eq_ok.mp read⟩

section

variable {p : Program} {n : Nat} {line : List Char}

theorem addLine_malformed (shown : value line ≠ []) (h : ¬ WellFormed line) :
    p.addLine n line = .error (.badByte n (reason (value line))) := by
  simp [addLine, shown, byte_of_malformed h]

theorem addLine_gives {b : UInt8} (h : Gives line b) :
    p.addLine n line =
      if p.size = Memory.space then .error .tooLarge else .ok (p.push b (Text.trim line)) := by
  simp [addLine, h.1, byte_eq_ok.mpr h]

end

theorem significant_cons (n : Nat) (line : List Char) (lines : List (List Char)) :
    significant n (line :: lines) =
      if value line = [] then significant (n + 1) lines
      else (line, n) :: significant (n + 1) lines := by
  by_cases silent : value line = [] <;> simp [significant, silent]

/-- What reading more lines makes of a program, by those of them that are significant. -/
def Outcome (p : Program) (ls : List (List Char × Nat)) (r : Except LoadError Program) : Prop :=
  match (ls.take (257 - p.size)).find? fun l => decide (¬ WellFormed l.1) with
  | some l => r = .error (.badByte l.2 (reason (value l.1)))
  | none =>
    if 256 < p.size + ls.length then r = .error .tooLarge
    else ∃ bytes, List.Forall₂ (fun l b => Gives l.1 b) ls bytes ∧
      r = .ok ⟨p.bytes ++ bytes, p.lines ++ ls.map fun l => Text.trim l.1⟩

theorem outcome_malformed {p : Program} {ls : List (List Char × Nat)} {line : List Char} {n : Nat}
    (room : p.size ≤ 256) (h : ¬ WellFormed line) :
    Outcome p ((line, n) :: ls) (.error (.badByte n (reason (value line)))) := by
  obtain ⟨k, left⟩ : ∃ k, 257 - p.size = k + 1 := ⟨256 - p.size, by omega⟩
  simp [Outcome, left, h]

theorem outcome_full {p : Program} {ls : List (List Char × Nat)} {line : List Char} {n : Nat}
    (full : p.size = 256) (h : WellFormed line) :
    Outcome p ((line, n) :: ls) (.error .tooLarge) := by
  simp [Outcome, full, h]

theorem outcome_push {p : Program} {ls : List (List Char × Nat)} {line : List Char} {n : Nat}
    {b : UInt8} {r : Except LoadError Program} (room : p.size < 256) (h : Gives line b)
    (rest : Outcome (p.push b (Text.trim line)) ls r) : Outcome p ((line, n) :: ls) r := by
  have left : 257 - p.size = 257 - (p.size + 1) + 1 := by omega
  have size : (p.push b (Text.trim line)).size = p.size + 1 := by simp [Program.size, push]
  have formed : WellFormed line := ⟨b, h⟩
  have length : p.size + 1 + ls.length = p.size + ((line, n) :: ls).length := by
    rw [List.length_cons]
    omega
  unfold Outcome at rest ⊢
  rw [size, length] at rest
  rw [left, List.take_succ_cons, List.find?_cons_of_neg (by simpa using formed)]
  split at rest
  · exact rest
  · split at rest
    · next large =>
      rw [if_pos large]
      exact rest
    · next small =>
      rw [if_neg small]
      obtain ⟨bytes, given, rfl⟩ := rest
      exact ⟨b :: bytes, .cons h given, by simp [push]⟩

theorem addLines_outcome {p : Program} (room : p.size ≤ 256) (n : Nat) (lines : List (List Char)) :
    Outcome p (significant n lines) (p.addLines n (lines.map some)) := by
  induction lines generalizing p n with
  | nil => simp [Outcome, significant, addLines, room]
  | cons line lines ih =>
    rw [significant_cons, List.map_cons, addLines]
    by_cases silent : value line = []
    · have passed : p.addLine n line = .ok p := by simp [addLine, silent]
      rw [if_pos silent, passed]
      exact ih room (n + 1)
    · rw [if_neg silent]
      by_cases formed : WellFormed line
      · obtain ⟨b, given⟩ := formed
        rw [addLine_gives given]
        by_cases full : p.size = Memory.space
        · rw [if_pos full]
          exact outcome_full full ⟨b, given⟩
        · have more : p.size < 256 := Nat.lt_of_le_of_ne room full
          rw [if_neg full]
          refine outcome_push more given (ih ?_ (n + 1))
          simpa [Program.size, push] using more
      · rw [addLine_malformed silent formed]
        exact outcome_malformed room formed

/-- Among the first 257 significant lines the first malformed one decides, with its number in the
whole text; without one a text of more than 256 significant lines is too large, and any other gives
a byte for each of them, in their order, and keeps the lines as they were written. -/
theorem parse_grammar (source : List Char) :
    let ls := significant 1 (Text.lines source)
    let bad := (ls.take 257).find? fun l => decide (¬ WellFormed l.1)
    (∀ n e, parse source = .error (.badByte n e) ↔
      ∃ line, bad = some (line, n) ∧ e = reason (value line)) ∧
    (parse source = .error .tooLarge ↔ bad = none ∧ 256 < ls.length) ∧
    ((∃ p, parse source = .ok p) ↔ bad = none ∧ ls.length ≤ 256) ∧
    ∀ p, parse source = .ok p →
      List.Forall₂ (fun l b => Gives l.1 b) ls p.bytes ∧
        p.lines = ls.map fun l => Text.trim l.1 := by
  intro ls bad
  have outcome : Outcome empty ls (parse source) :=
    addLines_outcome (by decide) 1 (Text.lines source)
  have none_read : 257 - empty.size = 257 ∧ empty.size + ls.length = ls.length :=
    ⟨rfl, Nat.zero_add _⟩
  unfold Outcome at outcome
  rw [none_read.1, none_read.2] at outcome
  change (match bad with | some l => _ | none => _) at outcome
  cases found : bad with
  | some l =>
    obtain ⟨line, n⟩ := l
    rw [found] at outcome
    dsimp only at outcome
    rw [outcome]
    simp [eq_comm, and_comm]
  | none =>
    rw [found] at outcome
    dsimp only at outcome
    split at outcome
    · next large =>
      rw [outcome]
      simp [large]
    · next small =>
      obtain ⟨bytes, given, read⟩ := outcome
      have few : ls.length ≤ 256 := Nat.not_lt.mp small
      rw [read]
      simpa [few, empty] using given

theorem parse_grammar_counted :
    parse "1 # one\n\n# none\n12".toList = .error (.badByte 4 (.notBinary "12".toList)) ∧
      ∃ p, parse "1 # one\n\n# none\n0000000010".toList = .ok p ∧ p.lines.length = 2 := by
  constructor
  · rw [(parse_grammar _).1]
    have shown : value "12".toList = "12".toList := by decide +kernel
    have bad : reason "12".toList = .notBinary "12".toList :=
      if_neg fun binary => absurd (binary '2' (by decide)) (by decide)
    exact ⟨"12".toList, by decide +kernel, by rw [shown, bad]⟩
  · obtain ⟨p, read⟩ := (parse_grammar "1 # one\n\n# none\n0000000010".toList).2.2.1.mpr
      (by decide +kernel)
    refine ⟨p, read, ?_⟩
    rw [((parse_grammar _).2.2.2 p read).2]
    decide +kernel

end Ls8.Program
