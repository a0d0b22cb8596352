import Ls8.Assembly
import Ls8.Proofs.Assembly.Operand
import Ls8.Proofs.Text.Parts

/-! The place of a value in a source. What is read of the source around such a place does not depend
on the text that is put there, as long as this text could stand there at all. -/
namespace Ls8.Assembly

open Text (Bare)

def isComment (c : Char) : Bool := c == ';' || c == '#'

theorem code_eq (s : List Char) : code s = Text.trim (Text.before isComment s) := rfl

/-- One place in a source. No comment begins before it on its line, and between it and the end of
the line, or the comment that ends the line, nothing but blanks stands. -/
structure Gap where
  above : List (List Char)
  front : List Char
  back : List Char
  /-- What follows the end of the line, if the line has one. -/
  below : Option (List Char)
  lines : ∀ s ∈ above, '\n' ∉ s
  inside : '\n' ∉ front ∧ '\n' ∉ back
  uncommented : ∀ c ∈ front, isComment c = false
  padded : ∀ c ∈ Text.before isComment back, Text.isBlank c = true

namespace Gap

def line (g : Gap) (u : List Char) : List Char := g.front ++ u ++ g.back

def fill (g : Gap) (u : List Char) : List Char :=
  g.above.flatMap (· ++ ['\n']) ++ (g.line u ++ g.below.elim [] ('\n' :: ·))

/-- The label that the line defines, and its statement as far as the place. -/
def stem (g : Gap) : Option (List Char) × List Char :=
  match Text.cut (· == ':') (Text.trimLeft g.front) with
  | none => (none, Text.trimLeft g.front)
  | some (label, rest) => (some (Text.upper (Text.trim label)), Text.trimLeft rest)

end Gap

/-- A text that keeps its place: a line is cut neither before nor after it nor inside. -/
structure Whole (u : List Char) : Prop where
  bare : Bare u
  some_char : u ≠ []
  colon : ∀ c ∈ u, (c == ':') = false
  comment : ∀ c ∈ u, isComment c = false
  feed : '\n' ∉ u

theorem isComment_of_isBlank {c : Char} (h : Text.isBlank c = true) : isComment c = false := by
  rw [Bool.eq_false_iff]
  intro mark
  rcases Bool.or_eq_true_iff.mp mark with same | same
  · rw [eq_of_beq same] at h
    exact absurd h (by decide)
  · rw [eq_of_beq same] at h
    exact absurd h (by decide)

theorem some_char_of_value {v : List Char} {c : Cell} (h : value v = .ok c) : v ≠ [] := by
  rintro rfl
  cases h

theorem value_free {v : List Char} {c : Cell} (h : value v = .ok c) {mark : Char}
    (other : mark.isAlphanum = false) (outside : mark ∉ ['-', '+', '_']) :
    ∀ b ∈ v, (b == mark) = false :=
  Text.free_of_spelled mark (spelled_of_value h) other outside

theorem isBlank_of_value {v : List Char} {c : Cell} (h : value v = .ok c) :
    ∀ b ∈ v, Text.isBlank b = false := by
  intro b member
  rcases spelled_of_value h b member with letter | mark
  · exact Text.isBlank_of_isAlphanum letter
  · simp only [List.mem_cons, List.not_mem_nil, or_false] at mark
    rcases mark with rfl | rfl | rfl <;> decide

theorem whole_of_value {v : List Char} {c : Cell} (h : value v = .ok c) : Whole v where
  bare := ⟨fun b member => isBlank_of_value h b (List.mem_of_mem_head? member),
    fun b member => isBlank_of_value h b (List.mem_of_mem_getLast? member)⟩
  some_char := some_char_of_value h
  colon := value_free h (by decide) (by decide)
  comment := by
    intro b member
    rw [isComment, value_free h (by decide) (by decide) b member,
      value_free h (by decide) (by decide) b member]
    rfl
  feed := Text.not_mem_of_spelled (spelled_of_value h) (by decide) (by decide)

theorem code_append_blank (s : List Char) {back : List Char}
    (blank : ∀ c ∈ back, Text.isBlank c = true) : code (s ++ back) = code s := by
  rw [code_eq, code_eq]
  exact Text.trim_before_append_blank (fun _ => isComment_of_isBlank) s blank

theorem read_dropLastIf (s : List Char) : Line.read (Text.dropLastIf '\r' s) = Line.read s := by
  have same : code (Text.dropLastIf '\r' s) = code s := by
    unfold Text.dropLastIf
    split
    · next ends =>
      obtain ⟨t, rfl⟩ := List.getLast?_eq_some_iff.mp (eq_of_beq ends)
      rw [List.dropLast_concat, code_append_blank t (List.forall_mem_singleton.mpr (by decide))]
    · rfl
  rw [Line.read, same, Line.read]

theorem sourceLines_feed {s : List Char} (t : List Char) (feed : '\n' ∉ s) :
    sourceLines (s ++ '\n' :: t) = Line.read s :: sourceLines t := by
  rw [sourceLines, Text.lines, Text.linesBy_append_feed '\r' t feed, List.map_cons,
    read_dropLastIf]
  rfl

theorem sourceLines_last {s : List Char} (feed : '\n' ∉ s) (some_char : s ≠ []) :
    sourceLines s = [Line.read s] := by
  rw [sourceLines, Text.lines, Text.linesBy_of_free '\r' feed some_char]
  rfl

theorem sourceLines_above {above : List (List Char)} (lines : ∀ s ∈ above, '\n' ∉ s)
    (t : List Char) :
    sourceLines (above.flatMap (· ++ ['\n']) ++ t) = above.map Line.read ++ sourceLines t := by
  induction above with
  | nil => rfl
  | cons s above ih =>
    have rest := ih fun s member => lines s (.tail _ member)
    rw [List.flatMap_cons, List.append_assoc, List.append_assoc, List.singleton_append,
      sourceLines_feed _ (lines s (.head _)), rest]
    rfl

namespace Gap

variable {g : Gap} {u v : List Char}

theorem sourceLines_fill (feed : '\n' ∉ u) (some_char : g.line u ≠ []) :
    sourceLines (g.fill u) =
      g.above.map Line.read ++ Line.read (g.line u) :: g.below.elim [] sourceLines := by
  have all : '\n' ∉ g.line u := by simp [line, g.inside, feed]
  rw [fill, sourceLines_above g.lines]
  cases g.below with
  | none => rw [Option.elim_none, List.append_nil, sourceLines_last all some_char]; rfl
  | some t => rw [Option.elim_some, sourceLines_feed t all]; rfl

theorem code_line (g : Gap) (whole : Whole u) : code (g.line u) = Text.trimLeft g.front ++ u := by
  have free : ∀ c ∈ g.front ++ u, isComment c = false := by
    intro c member
    rcases List.mem_append.mp member with left | right
    · exact g.uncommented c left
    · exact whole.comment c right
  have cut : Text.before isComment (g.line u) =
      g.front ++ u ++ Text.before isComment g.back :=
    Text.before_append_free g.back free
  rw [code_eq, cut, Text.trim_append_blank _ g.padded, Text.trim_append_bare _ whole.bare whole.some_char]

theorem read_line (g : Gap) (whole : Whole u) :
    Line.read (g.line u) = ⟨g.stem.1, some (split (g.stem.2 ++ u))⟩ := by
  have said (s : List Char) : statement? (s ++ u) = some (split (s ++ u)) := by
    rw [statement?, if_neg (by simp [whole.some_char])]
  rw [Line.read, code_line g whole, Text.cut_append_free _ whole.colon, stem]
  cases Text.cut (· == ':') (Text.trimLeft g.front) with
  | none => rw [Option.map_none, said]
  | some p =>
    obtain ⟨label, rest⟩ := p
    simp only [Option.map_some]
    rw [Text.trim_append_bare _ whole.bare whole.some_char, said]

end Gap

/-- What stands before a value in a statement, and the operands before it, stay as they are when
another text is put there. -/
theorem split_append {s v name : List Char} {init : List (List Char)} {c : Cell}
    (read : value v = .ok c) (h : split (s ++ v) = (name, init ++ [v])) {u : List Char}
    (bare : Bare u) (some_char : u ≠ []) :
    split (s ++ u) = (name, init ++ (Text.pieces (· == ',') u).map Text.trim) := by
  have whole := whole_of_value read
  cases cut : Text.cut Text.isBlank s with
  | none =>
    have blank : Text.cut Text.isBlank (s ++ v) = none := by
      rw [Text.cut_append_free s (isBlank_of_value read), cut]
      rfl
    rw [split, blank] at h
    simp at h
  | some p =>
    obtain ⟨m, rest⟩ := p
    obtain ⟨front, last, before⟩ := Text.pieces_eq_append (· == ',') (Text.trimLeft rest)
    have cut_with (w : List Char) (bare : Bare w) (some_char : w ≠ []) :
        split (s ++ w) = (Text.upper m,
          (Text.pieces (· == ',') (Text.trimLeft rest ++ w)).map Text.trim) := by
      rw [split, Text.cut_append_of_some w cut]
      simp only [Text.trim_append_bare rest bare some_char]
      rw [if_neg (by simp [some_char])]
    have one : Text.pieces (· == ',') v = [v] :=
      Text.pieces_of_free (value_free read (by decide) (by decide))
    have known := (cut_with v whole.bare whole.some_char).symm.trans h
    rw [Text.pieces_append before one, List.map_append, List.map_singleton,
      Text.trim_append_bare last whole.bare whole.some_char, Prod.mk.injEq] at known
    obtain ⟨rfl, operands⟩ := known
    obtain ⟨rfl, same⟩ := List.append_inj' operands rfl
    have blank := Text.trimLeft_eq_nil (List.cons.inj same).1
    obtain ⟨first, more, e⟩ := List.exists_cons_of_ne_nil (Text.pieces_ne_nil (· == ',') u)
    rw [cut_with u bare some_char, Text.pieces_append before e, e, List.map_append, List.map_cons,
      List.map_cons, Text.trim_blank_append first blank]

theorem suffix_of_split {t v name : List Char} {init : List (List Char)} (bare : Bare t)
    (h : split t = (name, init ++ [v])) : v <:+ t := by
  unfold split at h
  split at h
  · simp at h
  · next m rest cut =>
    have inside := Text.trim_suffix (Text.suffix_of_cut cut) bare
    dsimp only at h
    split at h
    · simp at h
    · obtain ⟨front, last, e⟩ := Text.pieces_eq_append (· == ',') (Text.trim rest)
      rw [e, List.map_append, List.map_singleton, Prod.mk.injEq] at h
      obtain ⟨-, same⟩ := List.append_inj' h.2 rfl
      rw [← (List.cons.inj same).1]
      exact (Text.trim_suffix (Text.suffix_of_pieces e) (Text.bare_trim rest)).trans inside

theorem suffix_of_statement {s v name : List Char} {init : List (List Char)}
    (h : (Line.read s).statement = some (name, init ++ [v])) : v <:+ code s := by
  have said {t : List Char} (bare : Bare t) (h : statement? t = some (name, init ++ [v])) :
      v <:+ t := by
    unfold statement? at h
    split at h
    · cases h
    · exact suffix_of_split bare (Option.some.inj h)
  have bare : Bare (code s) := Text.bare_trim _
  unfold Line.read at h
  split at h
  · exact said bare h
  · next label rest cut =>
    exact (said (Text.bare_trim rest) h).trans (Text.trim_suffix (Text.suffix_of_cut cut) bare)

theorem exists_place {s v : List Char} (ends : v <:+ code s) :
    ∃ front back, s = front ++ v ++ back ∧ (∀ c ∈ front, isComment c = false) ∧
      ∀ c ∈ Text.before isComment back, Text.isBlank c = true := by
  obtain ⟨p, e⟩ := ends
  obtain ⟨f, b, padded, -, blank⟩ := Text.trim_padding (Text.before isComment s)
  have whole : Text.before isComment s = f ++ p ++ v ++ b := by
    rw [padded, ← code_eq, ← e]
    simp
  refine ⟨f ++ p, b ++ s.dropWhile fun c => !isComment c, ?_, ?_, ?_⟩
  · rw [← List.append_assoc, ← whole, Text.before, List.takeWhile_append_dropWhile]
  · intro c member
    apply Text.free_before (s := s)
    rw [whole, List.append_assoc]
    exact List.mem_append_left _ member
  · have rest : Text.before isComment (s.dropWhile fun c => !isComment c) = [] := by
      cases left : s.dropWhile fun c => !isComment c with
      | nil => rfl
      | cons a t =>
        have first := List.head?_dropWhile_not (fun c => !isComment c) s
        rw [left] at first
        simpa [Text.before] using first
    rw [Text.before_append_free _ fun c h => isComment_of_isBlank (blank c h), rest,
      List.append_nil]
    exact blank

theorem exists_first {source : List Char} {l : Line} {rest : List Line}
    (h : sourceLines source = l :: rest) :
    ∃ s below, '\n' ∉ s ∧ source = s ++ Option.elim below [] ('\n' :: ·) ∧ l = Line.read s ∧
      rest = below.elim [] sourceLines := by
  by_cases feed : '\n' ∈ source
  · obtain ⟨s, t, rfl, free⟩ := List.eq_append_cons_of_mem feed
    rw [sourceLines_feed t free] at h
    cases h
    exact ⟨s, some t, free, rfl, rfl, rfl⟩
  · by_cases empty : source = []
    · rw [empty] at h
      cases h
    · rw [sourceLines_last feed empty] at h
      cases h
      exact ⟨source, none, feed, (List.append_nil _).symm, rfl, rfl⟩

/-- Every line that ends in a value has a gap where the value stands. -/
theorem exists_gap {source v name : List Char} {n : Nat} {line : Line} {init : List (List Char)}
    (at_line : (sourceLines source)[n]? = some line)
    (statement : line.statement = some (name, init ++ [v])) :
    ∃ g : Gap, g.fill v = source ∧ g.above.length = n ∧ Line.read (g.line v) = line := by
  -- The lines above are taken off one by one; the value then ends the code of the first line.
  induction n generalizing source with
  | zero =>
    cases whole : sourceLines source with
    | nil =>
      rw [whole] at at_line
      cases at_line
    | cons l rest =>
      rw [whole] at at_line
      cases at_line
      obtain ⟨s, below, feed, rfl, rfl, -⟩ := exists_first whole
      obtain ⟨front, back, rfl, uncommented, padded⟩ :=
        exists_place (suffix_of_statement statement)
      have inside : '\n' ∉ front ∧ '\n' ∉ back := by
        simp only [List.mem_append, not_or] at feed
        exact ⟨feed.1.1, feed.2⟩
      exact ⟨⟨[], front, back, below, by simp, inside, uncommented, padded⟩, rfl, rfl, rfl⟩
  | succ n ih =>
    cases whole : sourceLines source with
    | nil =>
      rw [whole] at at_line
      cases at_line
    | cons l rest =>
      rw [whole] at at_line
      obtain ⟨s, below, feed, rfl, -, rfl⟩ := exists_first whole
      cases below with
      | none => cases at_line
      | some t =>
        obtain ⟨g, rfl, rfl, same⟩ := ih at_line
        refine ⟨{ g with above := s :: g.above, lines := ?_ }, ?_, rfl, same⟩
        · exact List.forall_mem_cons.mpr ⟨feed, g.lines⟩
        · simp [Gap.fill, Gap.line]

end Ls8.Assembly
