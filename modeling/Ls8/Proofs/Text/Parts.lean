import Ls8.Proofs.Text.Words

/-! A text with another after it. Cutting the whole at marks, and trimming it, goes back to what the
first text has in it and to the second, so that the second can be put in the place of others. -/
namespace Ls8.Text

section

variable {α : Type} {mark : α → Bool} {s t u x r : List α}

theorem before_append_free (t : List α) (free : ∀ b ∈ s, mark b = false) :
    before mark (s ++ t) = s ++ before mark t :=
  List.takeWhile_append_of_pos fun b member => by simp [free b member]

theorem before_of_free (free : ∀ b ∈ s, mark b = false) : before mark s = s := by
  simpa [before] using before_append_free [] free

theorem free_before : ∀ b ∈ before mark s, mark b = false := by
  intro b member
  simpa using List.mem_takeWhile_imp member

theorem cut_eq_some : cut mark s = some (x, r) ↔
    ∃ a, mark a = true ∧ (∀ b ∈ x, mark b = false) ∧ s = x ++ a :: r := by
  constructor
  · intro h
    unfold cut at h
    split at h
    · cases h
    · next a rest left =>
      cases h
      have some_left : s.dropWhile (fun a => !mark a) ≠ [] := by simp [left]
      have first := List.head_dropWhile_not (fun a => !mark a) some_left
      refine ⟨a, by simpa [left] using first, free_before, ?_⟩
      rw [← left, before, List.takeWhile_append_dropWhile]
  · rintro ⟨a, marked, free, rfl⟩
    exact cut_append_mark r free marked

theorem before_append_of_mark (t : List α) (marked : ∃ b ∈ s, mark b = true) :
    before mark (s ++ t) = before mark s := by
  obtain ⟨b, member, isMark⟩ := marked
  cases h : cut mark s with
  | none => rw [cut_eq_none.mp h b member] at isMark; cases isMark
  | some p =>
    obtain ⟨a, first, free, e⟩ := cut_eq_some.mp h
    rw [e, List.append_assoc, List.cons_append, before_append_mark _ free first,
      before_append_mark _ free first]

theorem cut_append_of_some (u : List α) (h : cut mark s = some (x, r)) :
    cut mark (s ++ u) = some (x, r ++ u) := by
  obtain ⟨a, marked, free, rfl⟩ := cut_eq_some.mp h
  rw [List.append_assoc, List.cons_append]
  exact cut_append_mark (r ++ u) free marked

theorem cut_append_free (s : List α) (free : ∀ b ∈ u, mark b = false) :
    cut mark (s ++ u) = (cut mark s).map fun p => (p.1, p.2 ++ u) := by
  cases h : cut mark s with
  | some p => exact cut_append_of_some u h
  | none =>
    refine cut_eq_none.mpr fun b member => ?_
    rcases List.mem_append.mp member with left | right
    · exact cut_eq_none.mp h b left
    · exact free b right

/-- A text is free of a mark, or it is cut at the first one and the rest is a shorter text. -/
theorem mark_induction [BEq α] [LawfulBEq α] {P : List α → Prop} (a : α)
    (free : ∀ s, a ∉ s → P s) (more : ∀ s t, a ∉ s → P t → P (s ++ a :: t)) (s : List α) : P s := by
  induction h : s.length using Nat.strong_induction_on generalizing s with
  | _ n ih =>
    cases cut : cut (· == a) s with
    | none => exact free s (free_iff.mp (cut_eq_none.mp cut))
    | some p =>
      obtain ⟨b, first, before, e⟩ := cut_eq_some.mp cut
      obtain rfl : b = a := eq_of_beq first
      rw [e] at h ⊢
      refine more p.1 p.2 (free_iff.mp before) (ih _ ?_ p.2 rfl)
      rw [← h, List.length_append, List.length_cons]
      omega

theorem suffix_of_cut (h : cut mark s = some (x, r)) : r <:+ s := by
  obtain ⟨a, -, -, rfl⟩ := cut_eq_some.mp h
  exact ⟨x ++ [a], by simp⟩

theorem pieces_eq_append (mark : α → Bool) (s : List α) :
    ∃ front last, pieces mark s = front ++ [last] :=
  (List.eq_nil_or_concat' (pieces mark s)).resolve_left (pieces_ne_nil mark s)

/-- The last piece of the first text and the first piece of the second are one. -/
theorem pieces_append {front rest : List (List α)} {last first : List α}
    (left : pieces mark s = front ++ [last]) (right : pieces mark t = first :: rest) :
    pieces mark (s ++ t) = front ++ (last ++ first) :: rest := by
  induction s generalizing front last with
  | nil =>
    have only : front = [] ∧ last = [] := by
      cases front with
      | nil => simpa [pieces] using left.symm
      | cons f front => simp [pieces] at left
    simp [only, right]
  | cons a s ih =>
    obtain ⟨front', last', e⟩ := pieces_eq_append mark s
    have whole := ih e
    cases h : mark a with
    | true =>
      rw [pieces_mark s h, e, ← List.cons_append] at left
      obtain ⟨rfl, same⟩ := List.append_inj' left rfl
      cases same
      rw [List.cons_append, pieces_mark _ h, whole, List.cons_append]
    | false =>
      cases front' with
      | nil =>
        rw [pieces_other h e] at left
        cases front with
        | nil =>
          cases left
          rw [List.cons_append, pieces_other h whole]
          rfl
        | cons f front => simp at left
      | cons p front' =>
        have cut : ((a :: p) :: front') ++ [last'] = front ++ [last] :=
          (pieces_other h e).symm.trans left
        obtain ⟨rfl, same⟩ := List.append_inj' cut rfl
        cases same
        rw [List.cons_append, pieces_other h whole]
        rfl

theorem free_of_mem_pieces {piece : List α} (member : piece ∈ pieces mark s) :
    ∀ b ∈ piece, mark b = false := by
  induction s generalizing piece with
  | nil =>
    rw [List.mem_singleton.mp member]
    simp
  | cons a s ih =>
    cases h : mark a with
    | true =>
      rw [pieces_mark s h] at member
      rcases List.mem_cons.mp member with rfl | later
      · simp
      · exact ih later
    | false =>
      obtain ⟨first, more, e⟩ := List.exists_cons_of_ne_nil (pieces_ne_nil mark s)
      rw [pieces_other h e] at member
      rw [e] at ih
      rcases List.mem_cons.mp member with rfl | later
      · simpa [h] using ih (.head _)
      · exact ih (.tail _ later)

theorem pieces_eq_singleton (h : pieces mark s = [t]) : s = t ∧ ∀ b ∈ s, mark b = false := by
  have free : ∀ b ∈ s, mark b = false := by
    rw [← cut_eq_none, Option.eq_none_iff_forall_ne_some]
    rintro ⟨x, r⟩ found
    obtain ⟨a, marked, free, rfl⟩ := cut_eq_some.mp found
    rw [pieces_append_mark r free marked] at h
    exact pieces_ne_nil mark r (List.cons.inj h).2
  rw [pieces_of_free free] at h
  exact ⟨(List.cons.inj h).1, free⟩

theorem suffix_of_pieces {front : List (List α)} {last : List α}
    (h : pieces mark s = front ++ [last]) : last <:+ s := by
  induction s generalizing front with
  | nil =>
    cases front with
    | nil => cases h; exact List.suffix_rfl
    | cons f front => simp [pieces] at h
  | cons a s ih =>
    cases front with
    | nil =>
      rw [(pieces_eq_singleton h).1]
    | cons f front =>
      have later : pieces mark s = front ++ [last] ∨
          ∃ p, pieces mark s = (p :: front) ++ [last] := by
        cases first : mark a with
        | true =>
          rw [pieces_mark s first] at h
          exact .inl (List.cons.inj h).2
        | false =>
          obtain ⟨p, more, e⟩ := List.exists_cons_of_ne_nil (pieces_ne_nil mark s)
          rw [pieces_other first e] at h
          exact .inr ⟨p, by rw [e, (List.cons.inj h).2]; rfl⟩
      rcases later with e | ⟨p, e⟩
      · exact (ih e).trans (List.suffix_cons a s)
      · exact (ih e).trans (List.suffix_cons a s)

theorem linesBy_of_pieces [BEq α] {feed : α} (ret : α) {front : List (List α)} {last : List α}
    (h : pieces (· == feed) s = front ++ [last]) :
    linesBy feed ret s = front.map (dropLastIf ret) ++ if last.isEmpty then [] else [last] := by
  unfold linesBy
  cases last <;> simp [h]

theorem linesBy_of_free [BEq α] [LawfulBEq α] {feed : α} (ret : α) (free : feed ∉ s)
    (some_elem : s ≠ []) : linesBy feed ret s = [s] := by
  have one : pieces (· == feed) s = [] ++ [s] := pieces_of_free (free_iff.mpr free)
  rw [linesBy_of_pieces ret one, List.isEmpty_eq_false_iff.mpr some_elem]
  rfl

/-- Lines that have a character, and no end of a line in them, are found again in the text that
they make. -/
theorem lines_join {ls : List (List Char)}
    (whole : ∀ s ∈ ls, s ≠ [] ∧ '\n' ∉ s ∧ s.getLast? ≠ some '\r') :
    lines (join ['\n'] ls) = ls := by
  cases ls with
  | nil => rfl
  | cons first more =>
    have cut := pieces_join_of_free fun s member => (whole s member).2.1
    obtain ⟨front, last, e⟩ := (List.eq_nil_or_concat' (first :: more)).resolve_left (by simp)
    rw [e] at whole cut ⊢
    have kept : ∀ s ∈ front, dropLastIf '\r' s = id s :=
      fun s member => dropLastIf_of_last (whole s (List.mem_append_left _ member)).2.2
    have shown : last.isEmpty = false :=
      List.isEmpty_eq_false_iff.mpr (whole last (by simp)).1
    rw [lines, linesBy_of_pieces '\r' cut, List.map_congr_left kept, List.map_id, shown]
    rfl

theorem append_of_pieces {more : List (List α)} (h : pieces mark s = x :: t :: more) :
    ∃ a r, mark a = true ∧ s = x ++ a :: r ∧ pieces mark r = t :: more := by
  cases cut : cut mark s with
  | none =>
    rw [pieces_of_free (cut_eq_none.mp cut)] at h
    cases h
  | some p =>
    obtain ⟨a, marked, free, rfl⟩ := cut_eq_some.mp cut
    rw [pieces_append_mark _ free marked] at h
    obtain ⟨rfl, rest⟩ := List.cons.inj h
    exact ⟨a, p.2, marked, rfl, rest⟩

theorem feed_not_mem_of_mem_linesBy [BEq α] [LawfulBEq α] {feed ret : α}
    (h : t ∈ linesBy feed ret s) : feed ∉ t := by
  have free {piece : List α} (member : piece ∈ pieces (· == feed) s) : feed ∉ piece :=
    free_iff.mp (free_of_mem_pieces member)
  have ended (member : t ∈ (pieces (· == feed) s).dropLast.map (dropLastIf ret)) : feed ∉ t := by
    obtain ⟨piece, whole, rfl⟩ := List.mem_map.mp member
    intro inside
    apply free ((List.dropLast_sublist _).mem whole)
    unfold dropLastIf at inside
    split at inside
    · exact (List.dropLast_sublist _).mem inside
    · exact inside
  unfold linesBy at h
  dsimp only at h
  split at h
  · exact ended h
  · exact ended h
  · next rest _ last =>
    rcases List.mem_append.mp h with earlier | same
    · exact ended earlier
    · rw [List.mem_singleton.mp same]
      exact free (List.mem_of_getLast? last)

end

section

variable {s t u back : List Char}

theorem trimLeft_append_bare (s : List Char) (bare : Bare u) :
    trimLeft (s ++ u) = trimLeft s ++ u := by
  unfold trimLeft
  rw [List.dropWhile_append]
  split
  · next blank =>
    rw [List.isEmpty_iff.mp blank]
    exact trimLeft_of_head bare.1
  · rfl

theorem trim_append_bare (s : List Char) (bare : Bare u) (some_char : u ≠ []) :
    trim (s ++ u) = trimLeft s ++ u := by
  rw [trim, trimLeft_append_bare s bare]
  apply trimRight_of_last
  rw [List.getLast?_append_of_ne_nil _ some_char]
  exact bare.2

theorem trim_append_blank (s : List Char) (blank : ∀ c ∈ back, isBlank c = true) :
    trim (s ++ back) = trim s := by
  unfold trim trimLeft
  rw [List.dropWhile_append]
  split
  · next empty =>
    have nothing : back.dropWhile isBlank = [] := List.dropWhile_eq_nil_iff.mpr blank
    rw [nothing, List.isEmpty_iff.mp empty]
  · exact trimRight_blank _ blank

theorem trim_blank_append {front : List Char} (s : List Char)
    (blank : ∀ c ∈ front, isBlank c = true) : trim (front ++ s) = trim s := by
  rw [trim, trimLeft_blank s blank, trim]

theorem trim_before_append_blank {mark : Char → Bool} (apart : ∀ c, isBlank c = true → mark c = false)
    (s : List Char) (blank : ∀ c ∈ back, isBlank c = true) :
    trim (before mark (s ++ back)) = trim (before mark s) := by
  by_cases free : ∀ c ∈ s, mark c = false
  · have rest : ∀ c ∈ back, mark c = false := fun c h => apart c (blank c h)
    rw [before_append_free back free, before_of_free rest, before_of_free free,
      trim_append_blank s blank]
  · -- What is put after the mark is cut off with it.
    have marked : ∃ c ∈ s, mark c = true := by simpa using free
    rw [before_append_of_mark back marked]

theorem head_dropWhile_blank (s : List Char) :
    ∀ c ∈ (s.dropWhile isBlank).head?, isBlank c = false := by
  intro c member
  have first := List.head?_dropWhile_not isBlank s
  rwa [member] at first

theorem bare_trim (s : List Char) : Bare (trim s) := by
  constructor
  · intro c member
    have front : trim s <+: (trimLeft s).reverse.reverse :=
      List.reverse_prefix.mpr (List.dropWhile_suffix isBlank)
    rw [List.reverse_reverse] at front
    obtain ⟨rest, whole⟩ := front
    apply head_dropWhile_blank s
    have first : (trimLeft s).head? = some c := by
      rw [← whole, List.head?_append, member]
      rfl
    exact first
  · intro c member
    apply head_dropWhile_blank (trimLeft s).reverse
    rwa [trim, trimRight, List.getLast?_reverse] at member

theorem mem_of_mem_trim {c : Char} (h : c ∈ trim s) : c ∈ s := by
  have left := List.mem_reverse.mp ((List.dropWhile_sublist _).mem (List.mem_reverse.mp h))
  exact (List.dropWhile_sublist _).mem left

theorem trim_padding (s : List Char) : ∃ front back, s = front ++ (trim s ++ back) ∧
    (∀ c ∈ front, isBlank c = true) ∧ ∀ c ∈ back, isBlank c = true := by
  have right : trimLeft s = trim s ++ ((trimLeft s).reverse.takeWhile isBlank).reverse := by
    rw [trim, trimRight, ← List.reverse_append, List.takeWhile_append_dropWhile,
      List.reverse_reverse]
  refine ⟨s.takeWhile isBlank, ((trimLeft s).reverse.takeWhile isBlank).reverse, ?_, ?_, ?_⟩
  · rw [← right]
    exact List.takeWhile_append_dropWhile.symm
  · exact fun c member => List.mem_takeWhile_imp member
  · exact fun c member => List.mem_takeWhile_imp (List.mem_reverse.mp member)

theorem trim_trim (s : List Char) : trim (trim s) = trim s := trim_bare (bare_trim s)

/-- A text is trimmed and then cut at a mark, or cut and then trimmed: what is before the mark is
the same. -/
theorem trim_before_trim {mark : Char → Bool} (apart : ∀ c, isBlank c = true → mark c = false)
    (s : List Char) : trim (before mark (trim s)) = trim (before mark s) := by
  obtain ⟨front, back, padded, blank, blank'⟩ := trim_padding s
  have free : ∀ c ∈ front, mark c = false := fun c h => apart c (blank c h)
  calc trim (before mark (trim s))
    _ = trim (before mark (trim s ++ back)) := (trim_before_append_blank apart _ blank').symm
    _ = trim (front ++ before mark (trim s ++ back)) := (trim_blank_append _ blank).symm
    _ = trim (before mark (front ++ (trim s ++ back))) := by rw [before_append_free _ free]
    _ = trim (before mark s) := by rw [← padded]

theorem trim_suffix (h : s <:+ t) (bare : Bare t) : trim s <:+ t := by
  have ends : trimLeft s <:+ t := (List.dropWhile_suffix isBlank).trans h
  have kept : trim s = trimLeft s := by
    apply trimRight_of_last
    intro c member
    obtain ⟨front, rfl⟩ := ends
    apply bare.2 c
    rw [List.getLast?_append, member]
    rfl
  rw [kept]
  exact ends

theorem trimLeft_eq_nil (h : trimLeft s ++ u = u) : ∀ c ∈ s, isBlank c = true :=
  List.dropWhile_eq_nil_iff.mp (List.append_left_eq_self.mp h)

end

end Ls8.Text
