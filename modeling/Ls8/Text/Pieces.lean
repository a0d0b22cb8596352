/-! Cutting a text at marks: at the first one, at every one, and into lines.
The element type is free, so that the same rules cut characters and bytes. -/
namespace Ls8.Text

def before (mark : α → Bool) (s : List α) : List α := s.takeWhile fun a => !mark a

def cut (mark : α → Bool) (s : List α) : Option (List α × List α) :=
  match s.dropWhile fun a => !mark a with
  | [] => none
  | _ :: rest => some (before mark s, rest)

theorem before_append_mark {mark : α → Bool} {s : List α} {a : α} (t : List α)
    (free : ∀ b ∈ s, mark b = false) (h : mark a = true) : before mark (s ++ a :: t) = s := by
  unfold before
  rw [List.takeWhile_append_of_pos (fun b hb => by simp [free b hb])]
  simp [h]

theorem dropWhile_eq_nil {mark : α → Bool} {s : List α} :
    (s.dropWhile fun a => !mark a) = [] ↔ ∀ b ∈ s, mark b = false := by
  induction s with
  | nil => simp
  | cons b s ih => cases h : mark b <;> simp [h, ih]

theorem cut_eq_none {mark : α → Bool} {s : List α} :
    cut mark s = none ↔ ∀ b ∈ s, mark b = false := by
  rw [← dropWhile_eq_nil]
  unfold cut
  constructor
  · intro h
    split at h
    · next none_left => exact none_left
    · cases h
  · intro none_left
    rw [none_left]

theorem cut_append_mark {mark : α → Bool} {s : List α} {a : α} (t : List α)
    (free : ∀ b ∈ s, mark b = false) (h : mark a = true) :
    cut mark (s ++ a :: t) = some (s, t) := by
  have rest : ((s ++ a :: t).dropWhile fun b => !mark b) = a :: t := by
    rw [List.dropWhile_append_of_pos (fun b hb => by simp [free b hb])]
    simp [h]
  simp only [cut, rest, before_append_mark t free h]

/-- The pieces between the marks; there is one more of them than marks. -/
def pieces (mark : α → Bool) (s : List α) : List (List α) :=
  s.foldr (fun a done =>
    if mark a then [] :: done
    else match done with
      | [] => [[a]]
      | piece :: more => (a :: piece) :: more) [[]]

theorem pieces_mark {mark : α → Bool} {a : α} (s : List α) (h : mark a = true) :
    pieces mark (a :: s) = [] :: pieces mark s := by
  simp [pieces, h]

theorem pieces_other {mark : α → Bool} {a : α} {s : List α} {piece : List α}
    {more : List (List α)} (h : mark a = false) (rest : pieces mark s = piece :: more) :
    pieces mark (a :: s) = (a :: piece) :: more := by
  unfold pieces at rest ⊢
  simp [h, rest]

theorem pieces_ne_nil (mark : α → Bool) (s : List α) : pieces mark s ≠ [] := by
  induction s with
  | nil => simp [pieces]
  | cons a s ih =>
    cases h : mark a with
    | true => simp [pieces_mark s h]
    | false =>
      obtain ⟨piece, more, e⟩ := List.exists_cons_of_ne_nil ih
      simp [pieces_other h e]

theorem pieces_of_free {mark : α → Bool} {s : List α} (free : ∀ b ∈ s, mark b = false) :
    pieces mark s = [s] := by
  induction s with
  | nil => rfl
  | cons b s ih =>
    have rest := ih fun c hc => free c (List.mem_cons_of_mem b hc)
    exact pieces_other (free b List.mem_cons_self) rest

theorem pieces_append_mark {mark : α → Bool} {s : List α} {a : α} (t : List α)
    (free : ∀ b ∈ s, mark b = false) (h : mark a = true) :
    pieces mark (s ++ a :: t) = s :: pieces mark t := by
  induction s with
  | nil => exact pieces_mark t h
  | cons b s ih =>
    have rest := ih fun c hc => free c (List.mem_cons_of_mem b hc)
    exact pieces_other (free b List.mem_cons_self) rest

def dropLastIf [BEq α] (mark : α) (s : List α) : List α :=
  if s.getLast? == some mark then s.dropLast else s

/-- Lines ended by `feed`, or by `ret` and `feed`. The last line needs no end, and an empty
rest after the last end is no line. -/
def linesBy [BEq α] (feed ret : α) (s : List α) : List (List α) :=
  let all := pieces (· == feed) s
  let ended := all.dropLast.map (dropLastIf ret)
  match all.getLast? with
  | none | some [] => ended
  | some rest => ended ++ [rest]

theorem free_iff [BEq α] [LawfulBEq α] {mark : α} {s : List α} :
    (∀ b ∈ s, (b == mark) = false) ↔ mark ∉ s := by
  constructor
  · intro free member
    simpa using free mark member
  · intro absent b member
    exact beq_false_of_ne fun same => absent (same ▸ member)

theorem linesBy_append_feed [BEq α] [LawfulBEq α] {feed : α} (ret : α) {s : List α} (t : List α)
    (free : feed ∉ s) :
    linesBy feed ret (s ++ feed :: t) = dropLastIf ret s :: linesBy feed ret t := by
  have cutting : pieces (· == feed) (s ++ feed :: t) = s :: pieces (· == feed) t :=
    pieces_append_mark t (free_iff.mpr free) (beq_self_eq_true feed)
  obtain ⟨piece, more, e⟩ := List.exists_cons_of_ne_nil (pieces_ne_nil (· == feed) t)
  simp only [linesBy, cutting, e, List.dropLast_cons_cons, List.map_cons, List.getLast?_cons_cons]
  split <;> simp_all

def lines (s : List Char) : List (List Char) := linesBy '\n' '\r' s

def join (between : List α) (parts : List (List α)) : List α := between.intercalate parts

end Ls8.Text
