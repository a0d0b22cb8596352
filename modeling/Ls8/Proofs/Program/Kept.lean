import Ls8.Program
import Ls8.Proofs.Text.Parts

/-! The lines that a parsed program keeps. They are trimmed, with their comments, and the values were
read from the part before the comment. Read again they are the same lines and give the same
program. -/
namespace Ls8.Program

section

variable {p q : Program} {n : Nat} {line : List Char} {lines : List (List Char)}

theorem value_nil : value [] = [] := rfl

theorem value_trim (line : List Char) : value (Text.trim line) = value line := by
  apply Text.trim_before_trim
  intro c blank
  rw [beq_eq_false_iff_ne]
  rintro rfl
  exact absurd blank (by decide)

theorem addLine_eq_ok : p.addLine n line = .ok q ↔ (value line = [] ∧ q = p) ∨
    (value line ≠ [] ∧ p.size ≠ Memory.space ∧
      ∃ b, byte (value line) = .ok b ∧ q = p.push b (Text.trim line)) := by
  unfold addLine
  by_cases silent : value line = []
  · simp [silent, eq_comm]
  · cases read : byte (value line) with
    | error e => simp [silent, read]
    | ok b =>
      by_cases full : p.size = Memory.space
      · simp [silent, read, full]
      · simpa [silent, read, full] using eq_comm

theorem addLine_kept (shown : value line ≠ []) (added : p.addLine n line = .ok q) (k : Nat) :
    p.addLine k (Text.trim line) = .ok q ∧ q.lines = p.lines ++ [Text.trim line] := by
  obtain ⟨silent, -⟩ | ⟨-, room, b, read, rfl⟩ := addLine_eq_ok.mp added
  · exact absurd silent shown
  · refine ⟨addLine_eq_ok.mpr (.inr ?_), rfl⟩
    rw [value_trim, Text.trim_trim]
    exact ⟨shown, room, b, read, rfl⟩

/-- Lines that were read are read again from what is kept of them, whatever their numbers are. -/
theorem addLines_kept (read : p.addLines n (lines.map some) = .ok q) :
    ∃ kept, q.lines = p.lines ++ kept ∧
      (∀ s ∈ kept, ∃ line ∈ lines, s = Text.trim line ∧ value line ≠ []) ∧
      ∀ k, p.addLines k (kept.map some) = .ok q := by
  induction lines generalizing p n with
  | nil =>
    cases read
    exact ⟨[], by simp [addLines]⟩
  | cons line lines ih =>
    rw [List.map_cons, addLines] at read
    split at read
    · next p' added =>
      obtain ⟨kept, whole, from_lines, again⟩ := ih read
      have later : ∀ s ∈ kept, ∃ l ∈ line :: lines, s = Text.trim l ∧ value l ≠ [] := by
        intro s member
        obtain ⟨l, inside, given⟩ := from_lines s member
        exact ⟨l, List.mem_cons_of_mem line inside, given⟩
      by_cases silent : value line = []
      · obtain rfl : p' = p := by
          obtain ⟨-, same⟩ | ⟨shown, -⟩ := addLine_eq_ok.mp added
          · exact same
          · exact absurd silent shown
        exact ⟨kept, whole, later, again⟩
      · refine ⟨Text.trim line :: kept, ?_, ?_, fun k => ?_⟩
        · rw [whole, (addLine_kept silent added n).2]
          simp
        · exact List.forall_mem_cons.mpr ⟨⟨line, List.mem_cons_self, rfl, silent⟩, later⟩
        · rw [List.map_cons, addLines, (addLine_kept silent added k).1]
          exact again (k + 1)
    · cases read

/-- What is kept of a line that gives a byte is a line by itself: it is not empty, and neither a
feed is in it nor a carriage return at its end. -/
theorem whole_trim (feed : '\n' ∉ line) (shown : value line ≠ []) :
    Text.trim line ≠ [] ∧ '\n' ∉ Text.trim line ∧ (Text.trim line).getLast? ≠ some '\r' := by
  refine ⟨fun none_left => ?_, fun inside => feed (Text.mem_of_mem_trim inside), fun ends => ?_⟩
  · rw [← value_trim, none_left] at shown
    exact shown value_nil
  · have blank := (Text.bare_trim line).2 '\r' ends
    exact absurd blank (by decide)

end

/-- The lines that a program keeps, put together with feeds, are cut into the same lines again, and
parsing them gives the same program, in its bytes and in its lines. -/
theorem parse_lines {source : List Char} {p : Program} (read : parse source = .ok p) :
    Text.lines (Text.join ['\n'] p.lines) = p.lines ∧
      parse (Text.join ['\n'] p.lines) = .ok p := by
  obtain ⟨kept, whole, from_lines, again⟩ := addLines_kept read
  have same : p.lines = kept := whole
  have cut : Text.lines (Text.join ['\n'] kept) = kept := by
    apply Text.lines_join
    intro s member
    obtain ⟨line, inside, rfl, shown⟩ := from_lines s member
    exact whole_trim (Text.feed_not_mem_of_mem_linesBy inside) shown
  rw [same, parse, cut]
  exact ⟨rfl, again 1⟩

theorem parse_lines_blank :
    let kept := ["0001 # a\rb".toList, "10".toList]
    parse "\u2003 0001 # a\rb \r\r\n # none\n\t10\u0085\r".toList = .ok ⟨[1, 2], kept⟩ ∧
      parse (Text.join ['\n'] kept) = .ok ⟨[1, 2], kept⟩ := by
  intro kept
  have read : parse "\u2003 0001 # a\rb \r\r\n # none\n\t10\u0085\r".toList =
      .ok ⟨[1, 2], kept⟩ := by decide +kernel
  exact ⟨read, (parse_lines read).2⟩

end Ls8.Program
