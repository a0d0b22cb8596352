import Ls8.Proofs.Assembly.Alike

/-! Lines without a statement and without a label, blank or with nothing but a comment. They put out
no byte and give no address, so a source may have any number of them between its other lines; only
the numbers of the lines after them become higher. -/
namespace Ls8.Assembly

section

variable {α : Type}

/-- A list with others in between: `gap k` stands after the first `k` of its elements. -/
def interleave (gap : Nat → List α) : List α → List α
  | [] => gap 0
  | a :: as => gap 0 ++ a :: interleave (fun k => gap (k + 1)) as

/-- How many elements of the gaps stand before element `n`; the elements count from one. -/
def inserted (gap : Nat → List α) (n : Nat) : Nat := ∑ k ∈ Finset.range n, (gap k).length

theorem inserted_succ (gap : Nat → List α) (n : Nat) :
    inserted gap (n + 1) = (gap 0).length + inserted (fun k => gap (k + 1)) n := by
  rw [inserted, Finset.sum_range_succ', Nat.add_comm]
  rfl

theorem inserted_map {β : Type} (f : α → β) (gap : Nat → List α) (n : Nat) :
    inserted (fun k => (gap k).map f) n = inserted gap n := by
  simp [inserted]

theorem map_interleave {β : Type} (f : α → β) (gap : Nat → List α) (as : List α) :
    (interleave gap as).map f = interleave (fun k => (gap k).map f) (as.map f) := by
  induction as generalizing gap with
  | nil => rfl
  | cons a as ih => simp [interleave, ih]

end

def silent : Line := ⟨none, none⟩

theorem read_of_code_eq_nil {s : List Char} (h : code s = []) : Line.read s = silent := by
  rw [Line.read, h]
  rfl

def Error.renumber (f : Nat → Nat) (e : Error) : Error := ⟨f e.line, e.cause⟩

def Patch.renumber (f : Nat → Nat) (p : Patch) : Patch := ⟨p.place, p.label, f p.line⟩

namespace Draft

def renumber (f : Nat → Nat) (d : Draft) : Draft :=
  ⟨d.labels, d.output, d.pending.map (Patch.renumber f)⟩

variable {f : Nat → Nat} {d : Draft} {n m : Nat}

theorem renumber_empty : empty.renumber f = empty := rfl

theorem note_renumber (c : Cell) :
    (d.renumber f).note (f n) c = ((d.note n c).1.renumber f, (d.note n c).2) := by
  cases c <;> simp [note, renumber, Patch.renumber]

theorem emit_renumber (b : UInt8) : (d.renumber f).emit b = (d.emit b).map (renumber f) := by
  unfold emit
  by_cases room : d.output.length < Memory.space <;> simp [renumber, room, Except.map]

theorem define_renumber (label : List Char) :
    (d.renumber f).define label = (d.define label).map (renumber f) := by
  have output : (d.renumber f).output = d.output := rfl
  have known : (d.renumber f).address? label = d.address? label := rfl
  unfold define
  rw [output, known]
  split
  · rfl
  · split
    · rfl
    · split <;> rfl

theorem addBytes_renumber (rs : Readings) :
    (d.renumber f).addBytes (f n) rs = (d.addBytes n rs).map (renumber f) := by
  induction rs generalizing d with
  | nil => rfl
  | cons r rs ih =>
    cases r with
    | error cause => rfl
    | ok c =>
      simp only [addBytes, note_renumber, emit_renumber]
      cases (d.note n c).1.emit (d.note n c).2 with
      | ok d => exact ih
      | error cause => rfl

theorem addLine_renumber (line : Line) :
    (d.renumber f).addLine (f n) line = (d.addLine n line).map (renumber f) := by
  unfold addLine
  cases line.label with
  | none => exact addBytes_renumber line.readings
  | some label =>
    dsimp only
    rw [define_renumber]
    cases d.define label with
    | ok d => exact addBytes_renumber line.readings
    | error cause => rfl

theorem addLines_silent {gap : List Line} (quiet : ∀ line ∈ gap, line = silent) (ls : List Line) :
    d.addLines n (gap ++ ls) = d.addLines (n + gap.length) ls := by
  induction gap generalizing n with
  | nil => rfl
  | cons line gap ih =>
    have first : d.addLine n line = .ok d := by
      rw [quiet line List.mem_cons_self]
      rfl
    have later := ih (fun l member => quiet l (List.mem_cons_of_mem line member)) (n := n + 1)
    rw [List.cons_append, addLines, first, List.length_cons, Nat.add_comm gap.length,
      ← Nat.add_assoc]
    exact later

theorem addLines_interleave {gap : Nat → List Line} (quiet : ∀ k, ∀ line ∈ gap k, line = silent)
    {ls : List Line} (numbers : ∀ k < ls.length, f (n + k) = m + k + inserted gap (k + 1)) :
    (d.renumber f).addLines m (interleave gap ls) =
      ((d.addLines n ls).map (renumber f)).mapError (Error.renumber f) := by
  induction ls generalizing d n m gap with
  | nil =>
    have none_left := addLines_silent (quiet 0) [] (d := d.renumber f) (n := m)
    rw [List.append_nil] at none_left
    exact none_left
  | cons line ls ih =>
    -- The first gap has to be passed before the line stands under its new number; what is left are
    -- the other lines, with every gap one place earlier.
    have number : m + (gap 0).length = f n := by
      have first := numbers 0 (Nat.zero_lt_succ _)
      simpa [inserted, eq_comm] using first
    have later : ∀ k < ls.length, f (n + 1 + k) =
        f n + 1 + k + inserted (fun k => gap (k + 1)) (k + 1) := by
      intro k inside
      have next := numbers (k + 1) (Nat.succ_lt_succ inside)
      rw [inserted_succ] at next
      rw [← number, Nat.add_right_comm n, Nat.add_assoc n, next]
      omega
    rw [interleave, addLines_silent (quiet 0), number, addLines, addLine_renumber, addLines]
    cases d.addLine n line with
    | ok d => exact ih (fun k => quiet (k + 1)) later
    | error cause => rfl

theorem patch_renumber (output : List UInt8) (ps : List Patch) :
    (d.renumber f).patch output (ps.map (Patch.renumber f)) =
      (d.patch output ps).mapError (Error.renumber f) := by
  induction ps generalizing output with
  | nil => rfl
  | cons p ps ih =>
    have known : (d.renumber f).address? (p.renumber f).label = d.address? p.label := rfl
    rw [List.map_cons, patch, known, patch]
    cases d.address? p.label with
    | some a => exact ih (output.set p.place a)
    | none => rfl

end Draft

/-- Silent lines change nothing but the numbers of the lines after them. -/
theorem assemble_interleave {a b : List Char} {gap : Nat → List (List Char)}
    (quiet : ∀ k, ∀ s ∈ gap k, code s = [])
    (lines : Text.lines b = interleave gap (Text.lines a)) :
    assemble b = (assemble a).mapError (Error.renumber fun n => n + inserted gap n) := by
  have spread : sourceLines b =
      interleave (fun k => (gap k).map Line.read) (sourceLines a) := by
    rw [sourceLines, lines, map_interleave, sourceLines]
  have nothing : ∀ k, ∀ line ∈ (gap k).map Line.read, line = silent := by
    intro k line member
    obtain ⟨s, inside, rfl⟩ := List.mem_map.mp member
    exact read_of_code_eq_nil (quiet k s inside)
  have numbers : ∀ k < (sourceLines a).length, 1 + k + inserted gap (1 + k) =
      1 + k + inserted (fun k => (gap k).map Line.read) (k + 1) := by
    intro k _
    rw [inserted_map, Nat.add_comm 1]
  have first := Draft.addLines_interleave (f := fun n => n + inserted gap n) (d := Draft.empty)
    nothing numbers
  rw [← spread, Draft.renumber_empty] at first
  unfold assemble draft
  rw [first]
  cases Draft.empty.addLines 1 (sourceLines a) with
  | ok d => exact Draft.patch_renumber d.output d.pending
  | error e => rfl

/-- One program from both of two sources, or errors of one kind from both. Line `n` of the first
source is line `line n` of the second. -/
inductive Agree (line : Nat → Nat) :
    Except Error (List UInt8) → Except Error (List UInt8) → Prop where
  | program (p : List UInt8) : Agree line (.ok p) (.ok p)
  | error (n : Nat) {cause cause' : Cause} (same : cause.kind = cause'.kind) :
    Agree line (.error ⟨n, cause⟩) (.error ⟨line n, cause'⟩)

/-- Two sources whose lines are the same in capitals, without comments and without the blanks around
them, give the same program, or errors of one kind on one line. So do a source and the same source
with blank lines and lines of comment put in, or taken out, but that an error in it moves by the
number of the lines put in before it. -/
theorem layout_immaterial :
    (∀ a b, (Text.lines a).map plain = (Text.lines b).map plain →
      Agree id (assemble a) (assemble b)) ∧
    ∀ a b (gap : Nat → List (List Char)), (∀ k, ∀ s ∈ gap k, code s = []) →
      Text.lines b = interleave gap (Text.lines a) →
      Agree (fun n => n + inserted gap n) (assemble a) (assemble b) := by
  constructor
  · intro a b same
    rcases mapError_eq_mapError.mp (assemble_sort same) with
      ⟨p, left, right⟩ | ⟨⟨n, cause⟩, ⟨m, cause'⟩, left, right, sort⟩
    · rw [left, right]
      exact .program p
    · rw [left, right]
      obtain ⟨rfl, kind⟩ := Prod.mk.inj sort
      exact .error n kind
  · intro a b gap quiet lines
    rw [assemble_interleave quiet lines]
    cases assemble a with
    | ok p => exact .program p
    | error e => exact .error e.line rfl

theorem layout_immaterial_mixed :
    let a := "db end ; data\nEnd: halt".toList
    let b := " DB End\r\nEND: Halt#".toList
    let c := "db end ; data\n\n # code\nEnd: halt".toList
    let gap : Nat → List (List Char) := fun k => if k = 1 then [[], " # code".toList] else []
    Agree id (assemble a) (assemble b) ∧
      Agree (fun n => n + inserted gap n) (assemble a) (assemble c) := by
  intro a b c gap
  have quiet : ∀ k, ∀ s ∈ gap k, code s = [] := by
    intro k
    by_cases second : k = 1
    · rw [second]
      decide +kernel
    · have nothing : gap k = [] := if_neg second
      rw [nothing]
      exact fun s member => absurd member List.not_mem_nil
  have same : (Text.lines a).map plain = (Text.lines b).map plain := by decide +kernel
  have between : Text.lines c = interleave gap (Text.lines a) := by decide +kernel
  exact ⟨layout_immaterial.1 a b same, layout_immaterial.2 a c gap quiet between⟩

end Ls8.Assembly
