import Ls8.Proofs.Assembly.Layout

/-! The first pass. What it has after some lines depends on these lines alone: the bytes with
zeros for the labels, a note for every such zero with its place, and the table of the labels. -/
namespace Ls8.Assembly

def placeholder : Cell → UInt8
  | .byte b => b
  | .label _ => 0

def numbered (n : Nat) (ls : List Line) : List (Nat × Cell) :=
  (ls.zipIdx n).flatMap fun (line, n) => line.cells.map fun c => (n, c)

def patches (start : Nat) (cells : List (Nat × Cell)) : List Patch :=
  (cells.zipIdx start).filterMap fun ((n, c), place) =>
    match c with
    | .byte _ => none
    | .label name => some ⟨place, name, n⟩

def addresses (start : Nat) : List Line → List (List Char × Nat)
  | [] => []
  | line :: rest =>
    (line.label.map fun label => (label, start)).toList ++ addresses (start + line.size) rest

def sketch (table : List (List Char × UInt8)) (cells : List (Nat × Cell)) : Draft :=
  ⟨table, cells.map fun c => placeholder c.2, patches 0 cells⟩

def table (ls : List Line) : List (List Char × UInt8) :=
  ((addresses 0 ls).map fun (label, a) => (label, a.toUInt8)).reverse

/-- What the first pass has after some lines. -/
def draftOf (ls : List Line) : Draft := sketch (table ls) (numbered 1 ls)

theorem patches_append (start : Nat) (xs ys : List (Nat × Cell)) :
    patches start (xs ++ ys) = patches start xs ++ patches (start + xs.length) ys := by
  simp [patches, List.zipIdx_append]

theorem patches_byte (start n : Nat) (b : UInt8) : patches start [(n, .byte b)] = [] := rfl

theorem patches_label (start n : Nat) (name : List Char) :
    patches start [(n, .label name)] = [⟨start, name, n⟩] := rfl

theorem emit_sketch (known : List (List Char × UInt8)) (done : List (Nat × Cell)) (n : Nat)
    (c : Cell) :
    ((sketch known done).note n c).1.emit ((sketch known done).note n c).2 =
      if done.length < 256 then .ok (sketch known (done ++ [(n, c)])) else .error .tooLarge := by
  cases c with
  | byte b =>
    simp [sketch, Draft.note, Draft.emit, Memory.space, patches_append, patches_byte, placeholder]
  | label name =>
    simp [sketch, Draft.note, Draft.emit, Memory.space, patches_append, patches_label, placeholder]

theorem addBytes_sketch (known : List (List Char × UInt8)) (n : Nat) (rs : Readings)
    (done : List (Nat × Cell)) :
    Draft.addBytes n (sketch known done) rs =
      match blocked done.length rs with
      | some cause => .error cause
      | none =>
        .ok (sketch known (done ++ (rs.filterMap Except.toOption).map fun c => (n, c))) := by
  induction rs generalizing done with
  | nil => simp [Draft.addBytes, blocked]
  | cons r rs ih =>
    cases r with
    | error cause => simp [Draft.addBytes, blocked]
    | ok c =>
      simp only [Draft.addBytes, emit_sketch, blocked_ok]
      by_cases room : done.length < 256
      · simp only [if_pos room, ih, List.length_append, List.length_singleton]
        simp [Except.toOption]
      · simp only [if_neg room]

theorem define_sketch (known : List (List Char × UInt8)) (done : List (Nat × Cell))
    (label : List Char) :
    (sketch known done).define label =
      match misplaced (known.map Prod.fst) done.length label with
      | some cause => .error cause
      | none => .ok (sketch ((label, done.length.toUInt8) :: known) done) := by
  have defined : (known.lookup label).isSome = true ↔ label ∈ known.map Prod.fst := by
    simp
  have length : (sketch known done).output.length = done.length := by simp [sketch]
  unfold Draft.define misplaced Draft.address?
  rw [length]
  by_cases empty : label = []
  · simp [empty]
  · by_cases full : 256 ≤ done.length
    · simp [empty, full, Memory.space]
    · by_cases twice : label ∈ known.map Prod.fst
      · have found : ((sketch known done).labels.lookup label).isSome = true := defined.mpr twice
        simp [empty, full, Memory.space, twice, found]
      · have new : ¬ ((sketch known done).labels.lookup label).isSome = true :=
          fun h => twice (defined.mp h)
        simp [empty, full, Memory.space, twice, new]
        rfl

theorem addresses_append (start : Nat) (xs ys : List Line) :
    addresses start (xs ++ ys) = addresses start xs ++ addresses (start + total xs) ys := by
  induction xs generalizing start with
  | nil => simp [addresses, total]
  | cons line xs ih => simp [addresses, ih, total, Nat.add_assoc]

theorem map_fst_addresses (start : Nat) (ls : List Line) :
    (addresses start ls).map Prod.fst = labels ls := by
  induction ls generalizing start with
  | nil => rfl
  | cons line ls ih =>
    have rest := ih (start + line.size)
    unfold labels at rest ⊢
    cases has : line.label <;> simp [addresses, has, rest]

theorem numbered_append (n : Nat) (xs ys : List Line) :
    numbered n (xs ++ ys) = numbered n xs ++ numbered (n + xs.length) ys := by
  simp [numbered, List.zipIdx_append]

theorem length_numbered {ls : List Line} (formed : ∀ line ∈ ls, line.Formed) (n : Nat) :
    (numbered n ls).length = total ls := by
  induction ls generalizing n with
  | nil => rfl
  | cons line ls ih =>
    have head := Line.length_cells (formed line List.mem_cons_self)
    have rest := ih (fun l member => formed l (List.mem_cons_of_mem _ member)) (n + 1)
    unfold numbered at rest
    simp [numbered, rest, head, total]

theorem map_fst_table (ls : List Line) : (table ls).map Prod.fst = (labels ls).reverse := by
  have keys := map_fst_addresses 0 ls
  rw [table, List.map_reverse, List.map_map, ← keys]
  rfl

theorem misplaced_reverse (earlier : List (List Char)) (start : Nat) (label : List Char) :
    misplaced earlier.reverse start label = misplaced earlier start label := by
  simp [misplaced]

theorem draftOf_append_one (done : List Line) (line : Line) :
    draftOf (done ++ [line]) =
      sketch ((line.label.map fun label => (label, (total done).toUInt8)).toList ++ table done)
        (numbered 1 done ++ line.cells.map fun c => (done.length + 1, c)) := by
  have place : 1 + done.length = done.length + 1 := Nat.add_comm 1 done.length
  rw [draftOf, numbered_append, place]
  unfold table
  rw [addresses_append]
  cases has : line.label <;> simp [addresses, numbered, has]

/-- A line after lines without a fault: the pass stops exactly at a fault of its own. -/
theorem addLine_draftOf {done : List Line} (line : Line) (formed : ∀ line ∈ done, line.Formed) :
    (draftOf done).addLine (done.length + 1) line =
      match line.fault (labels done) (total done) with
      | some cause => .error cause
      | none => .ok (draftOf (done ++ [line])) := by
  have length := length_numbered formed 1
  rw [draftOf_append_one]
  cases has : line.label with
  | none =>
    simp only [Draft.addLine, has, draftOf, addBytes_sketch, length, Line.fault, Option.bind_none,
      Option.none_or]
    rfl
  | some label =>
    simp only [Draft.addLine, has, draftOf, define_sketch, length, map_fst_table,
      misplaced_reverse, Line.fault, Option.bind_some]
    cases misplaced (labels done) (total done) label with
    | some cause => rfl
    | none =>
      simp only [addBytes_sketch, length, Option.none_or]
      rfl

/-- The first pass goes through, or it stops at the first line that has a fault. -/
theorem addLines_draftOf {done : List Line} (rest : List Line) (clean : Faultless done) :
    (Faultless (done ++ rest) ∧
      (draftOf done).addLines (done.length + 1) rest = .ok (draftOf (done ++ rest))) ∨
    ∃ n cause, Offends (done ++ rest) n cause ∧
      (∀ n' < n, ∀ cause', ¬ Offends (done ++ rest) n' cause') ∧
      (draftOf done).addLines (done.length + 1) rest = .error ⟨n, cause⟩ := by
  induction rest generalizing done with
  | nil =>
    rw [List.append_nil]
    exact .inl ⟨clean, rfl⟩
  | cons line rest ih =>
    have step := addLine_draftOf line ((faultless_iff_placed done).mp clean).formed
    cases wrong : line.fault (labels done) (total done) with
    | none =>
      rw [wrong] at step
      have whole : done ++ line :: rest = done ++ [line] ++ rest := by simp
      have next : done.length + 1 = (done ++ [line]).length := by simp
      simp only [Draft.addLines, step]
      rw [whole, next]
      exact ih (faultless_append_one.mpr ⟨clean, wrong⟩)
    | some cause =>
      rw [wrong] at step
      refine .inr ⟨done.length + 1, cause, ⟨done, line, rest, rfl, rfl, wrong⟩, ?_, ?_⟩
      · intro n' earlier cause' offends
        exact clean n' cause' (offends_of_append offends (Nat.le_of_lt_succ earlier))
      · simp only [Draft.addLines, step]

theorem faultless_nil : Faultless [] := by
  rintro n cause ⟨done, line, rest, split, -⟩
  simp at split

theorem draft_outcome (source : List Char) :
    (Faultless (sourceLines source) ∧ draft source = .ok (draftOf (sourceLines source))) ∨
    ∃ n cause, Offends (sourceLines source) n cause ∧
      (∀ n' < n, ∀ cause', ¬ Offends (sourceLines source) n' cause') ∧
      draft source = .error ⟨n, cause⟩ :=
  addLines_draftOf (sourceLines source) faultless_nil

end Ls8.Assembly
