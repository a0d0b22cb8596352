import Ls8.Assembly
import Ls8.Proofs.Text.Parts

/-! How source is written. A text has lines; a line has a comment, blanks around what is left, a
label before the first colon, and a phrase of a word and of operands between commas. The reader of
lines finds in every text what this grammar finds there. -/
namespace Ls8.Assembly

open Text (Bare free_iff isBlank mark_induction)

/-- A line ends at a line feed, which may have a carriage return before it. What comes after the
last end is one more line, unless there is nothing. -/
inductive Lines : List Char → List (List Char) → Prop where
  | none : Lines [] []
  | last {s} (some_char : s ≠ []) (free : '\n' ∉ s) : Lines s [s]
  | feed {s t ls} (free : '\n' ∉ s) (bare : s.getLast? ≠ some '\r') (more : Lines t ls) :
      Lines (s ++ '\n' :: t) (s :: ls)
  | returned {s t ls} (free : '\n' ∉ s) (more : Lines t ls) :
      Lines (s ++ '\r' :: '\n' :: t) (s :: ls)

inductive Uncommented : List Char → List Char → Prop where
  | whole {s} (free : ';' ∉ s ∧ '#' ∉ s) : Uncommented s s
  | comment {s c t} (free : ';' ∉ s ∧ '#' ∉ s) (mark : c = ';' ∨ c = '#') :
      Uncommented (s ++ c :: t) s

def Trimmed (s t : List Char) : Prop :=
  ∃ front back, s = front ++ (t ++ back) ∧ Bare t ∧ (∀ c ∈ front, isBlank c = true) ∧
    ∀ c ∈ back, isBlank c = true

inductive Operands : List Char → List (List Char) → Prop where
  | last {s t} (free : ',' ∉ s) (h : Trimmed s t) : Operands s [t]
  | more {s t rest given} (free : ',' ∉ s) (h : Trimmed s t) (more : Operands rest given) :
      Operands (s ++ ',' :: rest) (t :: given)

/-- A trimmed text as a statement: a word in capitals, and what it is given after a blank. -/
inductive Phrase : List Char → Option (List Char × List (List Char)) → Prop where
  | nothing : Phrase [] none
  | word {w} (some_char : w ≠ []) (free : ∀ c ∈ w, isBlank c = false) :
      Phrase w (some (Text.upper w, []))
  | operands {w c s t given} (some_char : w ≠ []) (free : ∀ c ∈ w, isBlank c = false)
      (gap : isBlank c = true) (inner : Trimmed s t) (some_operand : t ≠ [])
      (list : Operands t given) : Phrase (w ++ c :: s) (some (Text.upper w, given))

inductive Reads : List Char → Line → Prop where
  | plain {s t code statement} (cut : Uncommented s t) (trimmed : Trimmed t code)
      (free : ':' ∉ code) (phrase : Phrase code statement) : Reads s ⟨none, statement⟩
  | labelled {s t label name rest code statement} (cut : Uncommented s t)
      (trimmed : Trimmed t (label ++ ':' :: rest)) (free : ':' ∉ label)
      (called : Trimmed label name) (after : Trimmed rest code) (phrase : Phrase code statement) :
      Reads s ⟨some (Text.upper name), statement⟩

def Written (source : List Char) (ls : List Line) : Prop :=
  ∃ texts, Lines source texts ∧ List.Forall₂ Reads texts ls

section

variable {s t : List Char} {line : Line}

theorem exists_lines (s : List Char) : ∃ ls, Lines s ls := by
  induction s using mark_induction '\n' with
  | free s free =>
    by_cases empty : s = []
    · exact ⟨[], empty ▸ .none⟩
    · exact ⟨[s], .last empty free⟩
  | more s t free ih =>
    obtain ⟨ls, rest⟩ := ih
    by_cases ends : s.getLast? = some '\r'
    · obtain ⟨u, rfl⟩ := List.getLast?_eq_some_iff.mp ends
      have before : '\n' ∉ u := fun member => free (List.mem_append_left _ member)
      rw [List.append_assoc]
      exact ⟨u :: ls, .returned before rest⟩
    · exact ⟨s :: ls, .feed free ends rest⟩

theorem lines_of_grammar {ls : List (List Char)} (h : Lines s ls) : Text.lines s = ls := by
  induction h with
  | none => rfl
  | last some_char free => exact Text.linesBy_of_free '\r' free some_char
  | feed free bare more ih =>
    rw [Text.lines, Text.linesBy_append_feed '\r' _ free, Text.dropLastIf_of_last bare,
      ← Text.lines, ih]
  | @returned s t ls free more ih =>
    have before : '\n' ∉ s ++ ['\r'] := by simpa using free
    have ended : Text.dropLastIf '\r' (s ++ ['\r']) = s := by simp [Text.dropLastIf]
    rw [List.append_cons, Text.lines, Text.linesBy_append_feed '\r' t before, ended, ← Text.lines,
      ih]

theorem lines_iff {ls : List (List Char)} : Lines s ls ↔ Text.lines s = ls := by
  refine ⟨lines_of_grammar, ?_⟩
  rintro rfl
  obtain ⟨ls, h⟩ := exists_lines s
  rwa [lines_of_grammar h]

theorem uncommented_iff :
    Uncommented s t ↔ Text.before (fun c => c == ';' || c == '#') s = t := by
  have marks : (∀ c ∈ t, (c == ';' || c == '#') = false) ↔ ';' ∉ t ∧ '#' ∉ t := by
    simp only [Bool.or_eq_false_iff, forall_and, free_iff]
  constructor
  · intro h
    cases h with
    | whole free => exact Text.before_of_free (marks.mpr free)
    | comment free mark =>
      exact Text.before_append_mark _ (marks.mpr free) (by simpa using mark)
  · rintro rfl
    have free := marks.mp Text.free_before
    cases cut : Text.cut (fun c => c == ';' || c == '#') s with
    | none =>
      rw [Text.before_of_free (Text.cut_eq_none.mp cut)] at free ⊢
      exact .whole free
    | some p =>
      obtain ⟨c, mark, before, e⟩ := Text.cut_eq_some.mp cut
      rw [e, Text.before_append_mark _ before mark] at free ⊢
      exact .comment free (by simpa using mark)

theorem trimmed_iff : Trimmed s t ↔ Text.trim s = t := by
  constructor
  · rintro ⟨front, back, rfl, bare, blank, blank'⟩
    rw [Text.trim_blank_append _ blank, Text.trim_append_blank _ blank', Text.trim_bare bare]
  · rintro rfl
    obtain ⟨front, back, padded, blank, blank'⟩ := Text.trim_padding s
    exact ⟨front, back, padded, Text.bare_trim s, blank, blank'⟩

theorem code_of_trimmed {u : List Char} (cut : Uncommented s t) (trimmed : Trimmed t u) :
    code s = u := by
  rw [code, uncommented_iff.mp cut, trimmed_iff.mp trimmed]

theorem operands_iff {given : List (List Char)} :
    Operands s given ↔ (Text.pieces (· == ',') s).map Text.trim = given := by
  constructor
  · intro h
    induction h with
    | last free h =>
      rw [Text.pieces_of_free (free_iff.mpr free), List.map_singleton, trimmed_iff.mp h]
    | more free h more ih =>
      rw [Text.pieces_append_mark _ (free_iff.mpr free) (beq_self_eq_true ','), List.map_cons,
        trimmed_iff.mp h, ih]
  · rintro rfl
    induction s using mark_induction ',' with
    | free s free =>
      rw [Text.pieces_of_free (free_iff.mpr free)]
      exact .last free (trimmed_iff.mpr rfl)
    | more s t free ih =>
      rw [Text.pieces_append_mark _ (free_iff.mpr free) (beq_self_eq_true ',')]
      exact .more free (trimmed_iff.mpr rfl) ih

theorem trim_ne_nil {w : List Char} {c : Char} (bare : Bare (w ++ c :: s))
    (gap : isBlank c = true) : Text.trim s ≠ [] := by
  intro nothing
  obtain ⟨front, back, padded, -, blank, blank'⟩ := trimmed_iff.mpr nothing
  have all : ∀ b ∈ c :: s, isBlank b = true := by
    rw [padded, List.nil_append]
    simp only [List.mem_cons, List.mem_append]
    rintro b (rfl | member | member)
    · exact gap
    · exact blank b member
    · exact blank' b member
  have last := bare.2 ((c :: s).getLast (List.cons_ne_nil c s))
  rw [List.getLast?_append_of_ne_nil _ (List.cons_ne_nil c s),
    List.getLast?_eq_some_getLast (List.cons_ne_nil c s)] at last
  have open_end := last rfl
  rw [all _ (List.getLast_mem _)] at open_end
  cases open_end

theorem phrase_iff {statement : Option (List Char × List (List Char))} (bare : Bare s) :
    Phrase s statement ↔ statement? s = statement := by
  constructor
  · intro h
    cases h with
    | nothing => rfl
    | word some_char free =>
      rw [statement?, if_neg (by simpa using some_char), split, Text.cut_eq_none.mpr free]
    | operands some_char free gap inner some_operand list =>
      rw [statement?, if_neg (by simp), split, Text.cut_append_mark _ free gap]
      simp only [trimmed_iff.mp inner, operands_iff.mp list,
        List.isEmpty_eq_false_iff.mpr some_operand]
      rfl
  · rintro rfl
    by_cases empty : s = []
    · rw [empty]
      exact .nothing
    · rw [statement?, if_neg (by simpa using empty), split]
      cases cut : Text.cut isBlank s with
      | none => exact .word empty (Text.cut_eq_none.mp cut)
      | some p =>
        obtain ⟨c, gap, free, rfl⟩ := Text.cut_eq_some.mp cut
        have some_operand := trim_ne_nil bare gap
        have some_char : p.1 ≠ [] := by
          intro nothing
          have first := bare.1 c (by simp [nothing])
          rw [gap] at first
          cases first
        simp only [List.isEmpty_eq_false_iff.mpr some_operand]
        exact .operands some_char free gap (trimmed_iff.mpr rfl) some_operand
          (operands_iff.mpr rfl)

theorem reads_iff : Reads s line ↔ Line.read s = line := by
  constructor
  · intro h
    cases h with
    | plain cut trimmed free phrase =>
      have rest := code_of_trimmed cut trimmed
      obtain ⟨-, -, -, bare, -⟩ := trimmed
      rw [Line.read, rest, Text.cut_eq_none.mpr (free_iff.mpr free)]
      simp only [(phrase_iff bare).mp phrase]
    | labelled cut trimmed free called after phrase =>
      rw [Line.read, code_of_trimmed cut trimmed,
        Text.cut_append_mark _ (free_iff.mpr free) (beq_self_eq_true ':')]
      have named := trimmed_iff.mp called
      have given := trimmed_iff.mp after
      obtain ⟨-, -, -, bare, -⟩ := after
      simp only [named, given, (phrase_iff bare).mp phrase]
  · rintro rfl
    have cut : Uncommented s _ := uncommented_iff.mpr rfl
    have trimmed : Trimmed _ (code s) := trimmed_iff.mpr rfl
    rw [Line.read]
    cases found : Text.cut (· == ':') (code s) with
    | none =>
      have phrase := (phrase_iff (Text.bare_trim _ : Bare (code s))).mpr rfl
      exact .plain cut trimmed (free_iff.mp (Text.cut_eq_none.mp found)) phrase
    | some p =>
      obtain ⟨c, colon, free, e⟩ := Text.cut_eq_some.mp found
      obtain rfl : c = ':' := eq_of_beq colon
      rw [e] at trimmed
      exact .labelled cut trimmed (free_iff.mp free) (trimmed_iff.mpr rfl) (trimmed_iff.mpr rfl)
        ((phrase_iff (Text.bare_trim p.2)).mpr rfl)

end

/-- Every text is the source of some lines, and of no others. -/
theorem written_iff {source : List Char} {ls : List Line} :
    Written source ls ↔ ls = sourceLines source := by
  have same : Reads = fun s line => Line.read s = line := by
    funext s line
    exact propext reads_iff
  have reads (texts : List (List Char)) :
      List.Forall₂ Reads texts ls ↔ texts.map Line.read = ls := by
    rw [same, ← List.forall₂_map_left_iff (R := Eq), List.forall₂_eq_eq_eq]
  simp only [Written, lines_iff, reads, exists_eq_left', sourceLines]
  exact eq_comm

end Ls8.Assembly
