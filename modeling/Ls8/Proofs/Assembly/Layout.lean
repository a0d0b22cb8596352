import Mathlib
import Ls8.Assembly

/-! What a source means as a whole, without an output that grows: how many bytes a line takes,
where its label stands, what is wrong with it after the lines before it, and which bytes it is. -/
namespace Ls8.Assembly

namespace Line

def size (line : Line) : Nat :=
  match line.statement with
  | none => 0
  | some (name, _) =>
    if name = "DB".toList then 1
    else match opcode? name with
      | none => 0
      | some op => 1 + op.operandCount

def Formed (line : Line) : Prop :=
  match line.statement with
  | none => True
  | some (name, given) =>
    if name = "DB".toList then ∃ v c, given = [v] ∧ value v = .ok c
    else ∃ op, opcode? name = some op ∧ given.length = op.operandCount ∧
      ∀ (i : Nat) (h : i < given.length), ∃ c, operand op i given[i] = .ok c

/-- The bytes of the line as far as they can be read. -/
def cells (line : Line) : List Cell := line.readings.filterMap Except.toOption

end Line

def complaint : Except Cause Cell → Option Cause
  | .error cause => some cause
  | .ok _ => none

/-- What is wrong with bytes that go to the places from `start` on: the first of them that cannot
be read or has no room. -/
def blocked (start : Nat) (rs : Readings) : Option Cause :=
  (rs.zipIdx start).findSome? fun (r, place) =>
    match r with
    | .error cause => some cause
    | .ok _ => if place < 256 then none else some .tooLarge

def misplaced (earlier : List (List Char)) (start : Nat) (label : List Char) : Option Cause :=
  if label = [] then some .emptyLabel
  else if 256 ≤ start then some .tooLarge
  else if label ∈ earlier then some (.duplicateLabel label)
  else none

/-- What is wrong with a line after lines of so many bytes that define the `earlier` labels. -/
def Line.fault (earlier : List (List Char)) (start : Nat) (line : Line) : Option Cause :=
  (line.label.bind (misplaced earlier start)).or (blocked start line.readings)

def total (ls : List Line) : Nat := (ls.map Line.size).sum

def labels (ls : List Line) : List (List Char) := ls.filterMap Line.label

/-- A label stands where the lines before its own end. -/
def Defines (ls : List Line) (label : List Char) (a : Nat) : Prop :=
  ∃ done line rest, ls = done ++ line :: rest ∧ line.label = some label ∧ a = total done

def Offends (ls : List Line) (n : Nat) (cause : Cause) : Prop :=
  ∃ done line rest, ls = done ++ line :: rest ∧ n = done.length + 1 ∧
    line.fault (labels done) (total done) = some cause

def FirstOffends (ls : List Line) (n : Nat) (cause : Cause) : Prop :=
  Offends ls n cause ∧ ∀ n' < n, ∀ cause', ¬ Offends ls n' cause'

def Faultless (ls : List Line) : Prop := ∀ n cause, ¬ Offends ls n cause

def references (ls : List Line) : List (Nat × List Char) :=
  (ls.zipIdx 1).flatMap fun (line, n) => line.cells.filterMap fun c =>
    match c with
    | .byte _ => none
    | .label name => some (n, name)

def FirstUndefined (ls : List Line) (n : Nat) (name : List Char) : Prop :=
  (references ls).find? (fun r => decide (r.2 ∉ labels ls)) = some (n, name)

/-- Every line can be read by itself, no label is defined twice, and the labels and the bytes
have room. -/
structure Placed (ls : List Line) : Prop where
  formed : ∀ line ∈ ls, line.Formed
  named : ∀ label ∈ labels ls, label ≠ []
  distinct : (labels ls).Nodup
  reachable : ∀ label a, Defines ls label a → a < 256
  fits : total ls ≤ 256

/-- A source that can be assembled: every label that is used is defined on some line, be it
before or after its use. -/
structure Acceptable (ls : List Line) : Prop extends Placed ls where
  defined : ∀ n name, (n, name) ∈ references ls → name ∈ labels ls

/-- The byte that a cell stands for in a source. -/
def Stands (ls : List Line) : Cell → UInt8 → Prop
  | .byte b, v => v = b
  | .label name, v => Defines ls name v.toNat

def Image (ls : List Line) (program : List UInt8) : Prop :=
  List.Forall₂ (Stands ls) (ls.flatMap Line.cells) program

theorem blocked_ok (start : Nat) (c : Cell) (rs : Readings) :
    blocked start (.ok c :: rs) =
      if start < 256 then blocked (start + 1) rs else some .tooLarge := by
  by_cases room : start < 256 <;> simp [blocked, room]

theorem blocked_of_room {start : Nat} {rs : Readings} (room : start + rs.length ≤ 256) :
    blocked start rs = rs.findSome? complaint := by
  induction rs generalizing start with
  | nil => rfl
  | cons r rs ih =>
    cases r with
    | error cause =>
      simp only [blocked, List.zipIdx_cons, List.findSome?_cons, complaint]
    | ok c =>
      rw [List.length_cons] at room
      rw [blocked_ok, if_pos (by omega), ih (by omega)]
      rfl

theorem blocked_eq_none {start : Nat} {rs : Readings} :
    blocked start rs = none ↔
      (∀ r ∈ rs, ∃ c, r = .ok c) ∧ (rs ≠ [] → start + rs.length ≤ 256) := by
  induction rs generalizing start with
  | nil => simp [blocked]
  | cons r rs ih =>
    cases r with
    | error cause => simp [blocked]
    | ok c =>
      rw [blocked_ok]
      by_cases room : start < 256
      · rw [if_pos room, ih]
        have last : (rs ≠ [] → start + 1 + rs.length ≤ 256) ↔ start + (rs.length + 1) ≤ 256 := by
          cases rs with
          | nil => simp; omega
          | cons r rs => simp; omega
        simp [last]
      · have none_fits : ¬ start + (rs.length + 1) ≤ 256 := by omega
        simp [room, none_fits]

theorem misplaced_eq_none {earlier : List (List Char)} {start : Nat} {label : List Char} :
    misplaced earlier start label = none ↔ label ≠ [] ∧ start < 256 ∧ label ∉ earlier := by
  unfold misplaced
  by_cases empty : label = []
  · simp [empty]
  · by_cases full : 256 ≤ start
    · simp [empty, full, Nat.not_lt_of_le full]
    · simp [empty, full, Nat.lt_of_not_le full]

theorem readings_eq_cells {rs : Readings} (good : ∀ r ∈ rs, ∃ c, r = .ok c) :
    rs = (rs.filterMap Except.toOption).map .ok := by
  induction rs with
  | nil => rfl
  | cons r rs ih =>
    obtain ⟨c, rfl⟩ := good r List.mem_cons_self
    have rest := ih fun r h => good r (List.mem_cons_of_mem _ h)
    simpa [Except.toOption] using rest

namespace Line

theorem formed_iff (line : Line) : line.Formed ↔ ∀ r ∈ line.readings, ∃ c, r = .ok c := by
  obtain ⟨label, statement⟩ := line
  cases statement with
  | none => simp [Formed, readings]
  | some words =>
    obtain ⟨name, given⟩ := words
    simp only [Formed, readings, Assembly.readings]
    by_cases data : name = "DB".toList
    · simp only [data, if_true]
      split
      · simp
      · next other =>
        simp only [List.mem_singleton, forall_eq, reduceCtorEq, exists_false, iff_false]
        rintro ⟨v, c, rfl, -⟩
        exact other v rfl
    · simp only [data, if_false]
      cases known : opcode? name with
      | none => simp
      | some op =>
        by_cases count : given.length = op.operandCount
        · simp only [if_pos count, List.forall_mem_cons, List.mem_mapIdx]
          constructor
          · rintro ⟨_, same, -, good⟩
            cases same
            refine ⟨⟨_, rfl⟩, ?_⟩
            rintro _ ⟨i, h, rfl⟩
            exact good i h
          · rintro ⟨-, good⟩
            exact ⟨op, rfl, count, fun i h => good _ ⟨i, h, rfl⟩⟩
        · simp [count]

theorem length_readings {line : Line} (formed : line.Formed) :
    line.readings.length = line.size := by
  obtain ⟨label, statement⟩ := line
  cases statement with
  | none => rfl
  | some words =>
    obtain ⟨name, given⟩ := words
    simp only [Formed] at formed
    simp only [readings, Assembly.readings, size]
    by_cases data : name = "DB".toList
    · simp only [data, if_true] at formed ⊢
      obtain ⟨v, c, rfl, -⟩ := formed
      rfl
    · simp only [data, if_false] at formed ⊢
      obtain ⟨op, known, count, -⟩ := formed
      simp [known, count]
      omega

theorem readings_of_formed {line : Line} (formed : line.Formed) :
    line.readings = line.cells.map .ok :=
  readings_eq_cells (line.formed_iff.mp formed)

theorem length_cells {line : Line} (formed : line.Formed) : line.cells.length = line.size := by
  rw [← length_readings formed, readings_of_formed formed, List.length_map]

theorem fault_eq_none {line : Line} {earlier : List (List Char)} {start : Nat} :
    line.fault earlier start = none ↔
      (∀ label, line.label = some label → label ≠ [] ∧ start < 256 ∧ label ∉ earlier) ∧
        line.Formed ∧ (line.size ≠ 0 → start + line.size ≤ 256) := by
  have space : line.Formed →
      ((line.readings ≠ [] → start + line.readings.length ≤ 256) ↔
        (line.size ≠ 0 → start + line.size ≤ 256)) := by
    intro formed
    rw [← length_readings formed, ne_eq, ne_eq, List.length_eq_zero_iff]
  rw [fault, Option.or_eq_none_iff, blocked_eq_none, ← formed_iff, and_congr_right space]
  cases line.label with
  | none => simp
  | some label => simp [misplaced_eq_none]

end Line

theorem total_append (xs ys : List Line) : total (xs ++ ys) = total xs + total ys := by
  simp [total]

theorem labels_append (xs ys : List Line) : labels (xs ++ ys) = labels xs ++ labels ys := by
  simp [labels]

theorem split_append_one {α : Type} {ls done rest : List α} {x y : α} :
    ls ++ [x] = done ++ y :: rest ↔
      (∃ rest', rest = rest' ++ [x] ∧ ls = done ++ y :: rest') ∨
        (rest = [] ∧ done = ls ∧ y = x) := by
  constructor
  · intro h
    rcases List.eq_nil_or_concat rest with rfl | ⟨rest', last, rfl⟩
    · obtain ⟨front, ends⟩ := List.append_inj' h rfl
      cases ends
      exact .inr ⟨rfl, front.symm, rfl⟩
    · rw [List.concat_eq_append] at h ⊢
      rw [← List.cons_append, ← List.append_assoc] at h
      obtain ⟨front, ends⟩ := List.append_inj' h rfl
      cases ends
      exact .inl ⟨rest', rfl, front⟩
  · rintro (⟨rest', rfl, rfl⟩ | ⟨rfl, rfl, rfl⟩)
    · simp
    · rfl

theorem offends_append_one {ls : List Line} {line : Line} {n : Nat} {cause : Cause} :
    Offends (ls ++ [line]) n cause ↔ Offends ls n cause ∨
      (n = ls.length + 1 ∧ line.fault (labels ls) (total ls) = some cause) := by
  simp only [Offends, split_append_one]
  constructor
  · rintro ⟨done, l, rest, ⟨rest', rfl, rfl⟩ | ⟨rfl, rfl, rfl⟩, place, wrong⟩
    · exact .inl ⟨done, l, rest', rfl, place, wrong⟩
    · exact .inr ⟨place, wrong⟩
  · rintro (⟨done, l, rest, rfl, place, wrong⟩ | ⟨place, wrong⟩)
    · exact ⟨done, l, rest ++ [line], .inl ⟨rest, rfl, rfl⟩, place, wrong⟩
    · exact ⟨ls, line, [], .inr ⟨rfl, rfl, rfl⟩, place, wrong⟩

theorem defines_append_one {ls : List Line} {line : Line} {label : List Char} {a : Nat} :
    Defines (ls ++ [line]) label a ↔
      Defines ls label a ∨ (line.label = some label ∧ a = total ls) := by
  simp only [Defines, split_append_one]
  constructor
  · rintro ⟨done, l, rest, ⟨rest', rfl, rfl⟩ | ⟨rfl, rfl, rfl⟩, place, stands⟩
    · exact .inl ⟨done, l, rest', rfl, place, stands⟩
    · exact .inr ⟨place, stands⟩
  · rintro (⟨done, l, rest, rfl, place, stands⟩ | ⟨place, stands⟩)
    · exact ⟨done, l, rest ++ [line], .inl ⟨rest, rfl, rfl⟩, place, stands⟩
    · exact ⟨ls, line, [], .inr ⟨rfl, rfl, rfl⟩, place, stands⟩

theorem offends_of_append {xs ys : List Line} {n : Nat} {cause : Cause}
    (h : Offends (xs ++ ys) n cause) (inside : n ≤ xs.length) : Offends xs n cause := by
  obtain ⟨done, line, rest, split, rfl, wrong⟩ := h
  rcases List.append_eq_append_iff.mp split with ⟨more, front, -⟩ | ⟨more, front, back⟩
  · rw [front, List.length_append] at inside
    omega
  · cases more with
    | nil =>
      rw [front, List.append_nil] at inside
      omega
    | cons first more =>
      cases back
      exact ⟨done, line, more, front, rfl, wrong⟩

theorem offends_append {xs : List Line} (ys : List Line) {n : Nat} {cause : Cause}
    (h : Offends xs n cause) : Offends (xs ++ ys) n cause := by
  obtain ⟨done, line, rest, rfl, place, wrong⟩ := h
  exact ⟨done, line, rest ++ ys, by simp, place, wrong⟩

theorem faultless_append_one {ls : List Line} {line : Line} :
    Faultless (ls ++ [line]) ↔
      Faultless ls ∧ line.fault (labels ls) (total ls) = none := by
  simp only [Faultless, offends_append_one, not_or]
  constructor
  · intro h
    refine ⟨fun n cause => (h n cause).1, Option.eq_none_iff_forall_ne_some.mpr ?_⟩
    intro cause wrong
    exact (h _ cause).2 ⟨rfl, wrong⟩
  · rintro ⟨h, right⟩ n cause
    refine ⟨h n cause, ?_⟩
    rintro ⟨-, wrong⟩
    rw [right] at wrong
    cases wrong

theorem placed_append_one {ls : List Line} {line : Line} :
    Placed (ls ++ [line]) ↔ Placed ls ∧ line.fault (labels ls) (total ls) = none := by
  have one : total [line] = line.size := by simp [total]
  rw [Line.fault_eq_none]
  constructor
  · intro h
    have fits := h.fits
    rw [total_append, one] at fits
    have named := h.named
    have distinct := h.distinct
    rw [labels_append] at named distinct
    refine ⟨⟨?_, ?_, ?_, ?_, ?_⟩, ?_, ?_, ?_⟩
    · exact fun l member => h.formed l (List.mem_append_left _ member)
    · exact fun l member => named l (List.mem_append_left _ member)
    · exact (List.nodup_append.mp distinct).1
    · exact fun l a place => h.reachable l a (defines_append_one.mpr (.inl place))
    · omega
    · intro label has
      have last : labels [line] = [label] := by simp [labels, has]
      rw [last] at named distinct
      refine ⟨named label (by simp), ?_, ?_⟩
      · exact h.reachable label _ (defines_append_one.mpr (.inr ⟨has, rfl⟩))
      · intro member
        exact (List.nodup_append.mp distinct).2.2 label member label (by simp) rfl
    · exact h.formed line (by simp)
    · exact fun _ => fits
  · rintro ⟨h, label_ok, formed, room⟩
    refine ⟨?_, ?_, ?_, ?_, ?_⟩
    · intro l member
      rcases List.mem_append.mp member with member | member
      · exact h.formed l member
      · rw [List.mem_singleton.mp member]
        exact formed
    · intro l member
      rw [labels_append] at member
      rcases List.mem_append.mp member with member | member
      · exact h.named l member
      · have has : line.label = some l := by simpa [labels] using member
        exact (label_ok l has).1
    · rw [labels_append, List.nodup_append]
      refine ⟨h.distinct, ?_, ?_⟩
      · cases has : line.label <;> simp [labels, has]
      · intro l member l' member' same
        have has : line.label = some l' := by simpa [labels] using member'
        exact (label_ok l' has).2.2 (same ▸ member)
    · intro l a place
      rcases defines_append_one.mp place with place | ⟨has, rfl⟩
      · exact h.reachable l a place
      · exact (label_ok l has).2.1
    · have := h.fits
      rw [total_append, one]
      omega

theorem faultless_iff_placed (ls : List Line) : Faultless ls ↔ Placed ls := by
  induction ls using List.reverseRecOn with
  | nil =>
    constructor
    · intro _
      refine ⟨?_, ?_, ?_, ?_, ?_⟩ <;> simp [labels, total, Defines]
    · rintro _ n cause ⟨done, line, rest, split, -⟩
      simp at split
  | append_singleton ls line ih => rw [faultless_append_one, placed_append_one, ih]

end Ls8.Assembly
