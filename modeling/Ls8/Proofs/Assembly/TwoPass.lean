import Ls8.Proofs.Assembly.FirstPass

/-! The second pass, and both together. A source is assembled exactly if it is acceptable, and then
to the bytes of its lines with the address of every label where the label is used. -/
namespace Ls8.Assembly

def uses (cells : List (Nat × Cell)) : List (Nat × List Char) :=
  cells.filterMap fun (n, c) =>
    match c with
    | .byte _ => none
    | .label name => some (n, name)

def Draft.settle (d : Draft) : Cell → UInt8
  | .byte b => b
  | .label name => (d.address? name).getD 0

/-- Patching goes through the output from place to place; what stands before a place is done. -/
theorem patch_cells (d : Draft) (front : List UInt8) (cells : List (Nat × Cell)) :
    d.patch (front ++ cells.map fun c => placeholder c.2) (patches front.length cells) =
      match (uses cells).find? fun r => (d.address? r.2).isNone with
      | some r => .error ⟨r.1, .undefinedLabel r.2⟩
      | none => .ok (front ++ cells.map fun c => d.settle c.2) := by
  induction cells generalizing front with
  | nil => simp [patches, uses, Draft.patch]
  | cons cell cells ih =>
    obtain ⟨n, c⟩ := cell
    cases c with
    | byte b =>
      have rest := ih (front ++ [b])
      simp only [List.length_append, List.length_singleton, List.append_assoc,
        List.singleton_append] at rest
      exact rest
    | label name =>
      have first : patches front.length ((n, .label name) :: cells) =
          ⟨front.length, name, n⟩ :: patches (front.length + 1) cells := rfl
      have use : uses ((n, .label name) :: cells) = (n, name) :: uses cells := rfl
      rw [first, use]
      cases known : d.address? name with
      | none => simp [Draft.patch, known]
      | some a =>
        have rest := ih (front ++ [a])
        simp only [List.length_append, List.length_singleton, List.append_assoc,
          List.singleton_append] at rest
        have put : (front ++ (0 :: cells.map fun c => placeholder c.2)).set front.length a =
            front ++ (a :: cells.map fun c => placeholder c.2) := by simp
        have settled : d.settle (.label name) = a := by simp [Draft.settle, known]
        have waits : placeholder (.label name) = 0 := rfl
        simp only [List.map_cons, waits, Draft.patch, known, put, rest, settled, List.find?_cons,
          Option.isNone_some]

theorem mem_addresses {ls : List Line} {label : List Char} {a : Nat} :
    (label, a) ∈ addresses 0 ls ↔ Defines ls label a := by
  induction ls using List.reverseRecOn with
  | nil => simp [addresses, Defines]
  | append_singleton ls line ih =>
    rw [addresses_append, List.mem_append, ih, defines_append_one]
    cases has : line.label with
    | none => simp [addresses, has]
    | some l => simp [addresses, has, eq_comm]

theorem lookup_eq_some_of_mem {t : List (List Char × UInt8)} {label : List Char} {v : UInt8}
    (distinct : (t.map Prod.fst).Nodup) (member : (label, v) ∈ t) : t.lookup label = some v := by
  induction t with
  | nil => cases member
  | cons entry t ih =>
    rw [List.map_cons, List.nodup_cons] at distinct
    rcases List.mem_cons.mp member with rfl | later
    · simp
    · have key : label ∈ t.map Prod.fst := List.mem_map.mpr ⟨_, later, rfl⟩
      have other : label ≠ entry.1 := fun same => distinct.1 (same ▸ key)
      rw [List.lookup_cons, beq_false_of_ne other]
      exact ih distinct.2 later

theorem mem_table {ls : List Line} {label : List Char} {v : UInt8} :
    (label, v) ∈ table ls ↔ ∃ a, Defines ls label a ∧ v = a.toUInt8 := by
  simp only [table, List.mem_reverse, List.mem_map, Prod.exists, mem_addresses, Prod.mk.injEq]
  constructor
  · rintro ⟨_, a, place, rfl, rfl⟩
    exact ⟨a, place, rfl⟩
  · rintro ⟨a, place, rfl⟩
    exact ⟨label, a, place, rfl, rfl⟩

theorem address?_of_defines {ls : List Line} {label : List Char} {a : Nat}
    (distinct : (labels ls).Nodup) (place : Defines ls label a) :
    (draftOf ls).address? label = some a.toUInt8 := by
  apply lookup_eq_some_of_mem
  · change ((table ls).map Prod.fst).Nodup
    rw [map_fst_table]
    exact List.nodup_reverse.mpr distinct
  · exact mem_table.mpr ⟨a, place, rfl⟩

theorem mem_labels {ls : List Line} {label : List Char} :
    label ∈ labels ls ↔ ∃ a, Defines ls label a := by
  rw [← map_fst_addresses 0 ls]
  simp [mem_addresses]

theorem isNone_address? (ls : List Line) (label : List Char) :
    ((draftOf ls).address? label).isNone = decide (label ∉ labels ls) := by
  have keys : label ∈ (table ls).map Prod.fst ↔ label ∈ labels ls := by
    rw [map_fst_table, List.mem_reverse]
  have missing : (table ls).lookup label = none ↔ label ∉ labels ls := by
    rw [List.lookup_eq_none_iff, ← keys]
    constructor
    · intro absent member
      obtain ⟨entry, inside, same⟩ := List.mem_map.mp member
      simpa [same] using absent entry inside
    · intro absent entry inside
      rw [bne_iff_ne]
      rintro rfl
      exact absent (List.mem_map_of_mem inside)
  rw [Bool.eq_iff_iff, decide_eq_true_iff, Option.isNone_iff_eq_none]
  exact missing

theorem defines_unique {ls : List Line} {label : List Char} {a b : Nat} (placed : Placed ls)
    (ha : Defines ls label a) (hb : Defines ls label b) : a = b := by
  have left := address?_of_defines placed.distinct ha
  have right := address?_of_defines placed.distinct hb
  have small := placed.reachable label a ha
  have small' := placed.reachable label b hb
  rw [left, Option.some.injEq, ← UInt8.toNat_inj] at right
  simpa [Nat.mod_eq_of_lt, small, small'] using right

theorem stands_unique {ls : List Line} (placed : Placed ls) {c : Cell} {v w : UInt8}
    (hv : Stands ls c v) (hw : Stands ls c w) : v = w := by
  cases c with
  | byte b => exact hv.trans hw.symm
  | label name => exact UInt8.toNat_inj.mp (defines_unique placed hv hw)

theorem image_unique {ls : List Line} (placed : Placed ls) {p q : List UInt8}
    (hp : Image ls p) (hq : Image ls q) : p = q :=
  List.right_unique_forall₂' (R := Stands ls) (fun _ _ _ hv hw => stands_unique placed hv hw) hp hq

theorem references_eq_uses (ls : List Line) : references ls = uses (numbered 1 ls) := by
  unfold references uses numbered
  rw [List.filterMap_flatMap]
  congr 1
  funext ⟨line, n⟩
  rw [List.filterMap_map]
  rfl

theorem map_snd_numbered (n : Nat) (ls : List Line) :
    (numbered n ls).map Prod.snd = ls.flatMap Line.cells := by
  induction ls generalizing n with
  | nil => rfl
  | cons line ls ih =>
    have rest := ih (n + 1)
    unfold numbered at rest ⊢
    simp [rest, Function.comp_def]

theorem label_mem_cells {ls : List Line} {n : Nat} {name : List Char}
    (used : (n, name) ∈ references ls) : .label name ∈ ls.flatMap Line.cells := by
  rw [references_eq_uses] at used
  obtain ⟨⟨n, c⟩, member, shown⟩ := List.mem_filterMap.mp used
  rw [← map_snd_numbered 1 ls]
  cases c with
  | byte b => cases shown
  | label name =>
    cases shown
    exact List.mem_map_of_mem member

theorem stands_settle {ls : List Line} (ok : Acceptable ls) {n : Nat} {c : Cell}
    (member : (n, c) ∈ numbered 1 ls) : Stands ls c ((draftOf ls).settle c) := by
  cases c with
  | byte b => rfl
  | label name =>
    have used : (n, name) ∈ references ls := by
      rw [references_eq_uses]
      exact List.mem_filterMap.mpr ⟨(n, .label name), member, rfl⟩
    obtain ⟨a, place⟩ := mem_labels.mp (ok.defined n name used)
    have known := address?_of_defines ok.distinct place
    have small := ok.reachable name a place
    have value : ((draftOf ls).settle (.label name)).toNat = a := by
      simp [Draft.settle, known, Nat.mod_eq_of_lt small]
    simpa [Stands, value] using place

theorem resolve_draftOf (ls : List Line) :
    (draftOf ls).resolve =
      match (references ls).find? fun r => decide (r.2 ∉ labels ls) with
      | some r => .error ⟨r.1, .undefinedLabel r.2⟩
      | none => .ok ((ls.flatMap Line.cells).map (draftOf ls).settle) := by
  have passed := patch_cells (draftOf ls) [] (numbered 1 ls)
  simp only [isNone_address?, ← references_eq_uses] at passed
  rw [← map_snd_numbered 1 ls, List.map_map]
  exact passed

theorem image_settle {ls : List Line} (ok : Acceptable ls) :
    Image ls ((ls.flatMap Line.cells).map (draftOf ls).settle) := by
  rw [Image, List.forall₂_map_right_iff, List.forall₂_same]
  intro c member
  rw [← map_snd_numbered 1 ls] at member
  obtain ⟨⟨n, c⟩, inside, rfl⟩ := List.mem_map.mp member
  exact stands_settle ok inside

theorem operand_ne_undefined (op : Opcode) (i : Nat) (s label : List Char) :
    operand op i s ≠ .error (.undefinedLabel label) := by
  unfold operand value register
  split
  · split
    · split <;> simp
    · simp
    · split <;> simp
  · split <;> simp

theorem readings_ne_undefined (line : Line) (label : List Char) :
    .error (.undefinedLabel label) ∉ line.readings := by
  unfold Line.readings readings
  split
  · simp
  · split
    · split
      · next v _ =>
        have data : value v = operand .ldi 1 v := rfl
        simp [data, (operand_ne_undefined .ldi 1 v label).symm]
      · simp
    · split
      · simp
      · split
        · intro member
          simp only [List.mem_cons, reduceCtorEq, List.mem_mapIdx, false_or] at member
          obtain ⟨i, h, same⟩ := member
          exact operand_ne_undefined _ _ _ label same
        · simp

theorem fault_ne_undefined (line : Line) (earlier : List (List Char)) (start : Nat)
    (label : List Char) : line.fault earlier start ≠ some (.undefinedLabel label) := by
  intro wrong
  rcases Option.or_eq_some_iff.mp wrong with wrong | ⟨-, wrong⟩
  · obtain ⟨name, -, wrong⟩ := Option.bind_eq_some_iff.mp wrong
    unfold misplaced at wrong
    split at wrong
    · cases wrong
    · split at wrong
      · cases wrong
      · split at wrong <;> cases wrong
  · obtain ⟨⟨r, place⟩, member, wrong⟩ := List.exists_of_findSome?_eq_some wrong
    have inside : r ∈ line.readings := List.fst_mem_of_mem_zipIdx member
    cases r with
    | error cause =>
      cases wrong
      exact readings_ne_undefined line label inside
    | ok c =>
      dsimp only at wrong
      split at wrong <;> cases wrong

theorem offends_unique {ls : List Line} {n : Nat} {cause cause' : Cause}
    (h : Offends ls n cause) (h' : Offends ls n cause') : cause = cause' := by
  obtain ⟨done, line, rest, split, place, wrong⟩ := h
  obtain ⟨done', line', rest', split', place', wrong'⟩ := h'
  have length : done.length = done'.length := by omega
  obtain ⟨rfl, tail⟩ := List.append_inj (split.symm.trans split') length
  cases tail
  exact Option.some.inj (wrong.symm.trans wrong')

theorem firstOffends_unique {ls : List Line} {n n' : Nat} {cause cause' : Cause}
    (h : FirstOffends ls n cause) (h' : FirstOffends ls n' cause') :
    n = n' ∧ cause = cause' := by
  rcases Nat.lt_trichotomy n n' with before | rfl | after
  · exact absurd h.1 (h'.2 n before cause)
  · exact ⟨rfl, offends_unique h.1 h'.1⟩
  · exact absurd h'.1 (h.2 n' after cause')

theorem acceptable_iff {ls : List Line} :
    Acceptable ls ↔
      Faultless ls ∧ (references ls).find? (fun r => decide (r.2 ∉ labels ls)) = none := by
  rw [faultless_iff_placed, List.find?_eq_none]
  simp only [decide_eq_true_eq, Decidable.not_not]
  constructor
  · intro ok
    exact ⟨ok.toPlaced, fun r member => ok.defined r.1 r.2 member⟩
  · rintro ⟨placed, defined⟩
    exact ⟨placed, fun n name member => defined (n, name) member⟩

/-- The three ways in which assembling ends. -/
theorem assemble_outcome (source : List Char) :
    let ls := sourceLines source
    (∃ program, Acceptable ls ∧ Image ls program ∧ assemble source = .ok program) ∨
    (∃ n cause, FirstOffends ls n cause ∧ assemble source = .error ⟨n, cause⟩) ∨
    (∃ n name, Faultless ls ∧ FirstUndefined ls n name ∧
      assemble source = .error ⟨n, .undefinedLabel name⟩) := by
  intro ls
  rcases draft_outcome source with ⟨clean, drafted⟩ | ⟨n, cause, offends, first, drafted⟩
  · have resolved := resolve_draftOf ls
    have passes : assemble source = (draftOf ls).resolve := by
      rw [assemble, drafted]
      rfl
    rw [resolved] at passes
    cases search : (references ls).find? (fun r => decide (r.2 ∉ labels ls)) with
    | none =>
      have ok := acceptable_iff.mpr ⟨clean, search⟩
      rw [search] at passes
      exact .inl ⟨_, ok, image_settle ok, passes⟩
    | some r =>
      rw [search] at passes
      exact .inr (.inr ⟨r.1, r.2, clean, search, passes⟩)
  · refine .inr (.inl ⟨n, cause, ⟨offends, first⟩, ?_⟩)
    rw [assemble, drafted]
    rfl

theorem acceptable_of_ok {source : List Char} {program : List UInt8}
    (h : assemble source = .ok program) :
    Acceptable (sourceLines source) ∧ Image (sourceLines source) program := by
  rcases assemble_outcome source with ⟨p, ok, image, e⟩ | ⟨n, cause, -, e⟩ | ⟨n, name, -, -, e⟩
  · rw [h] at e
    cases e
    exact ⟨ok, image⟩
  · rw [h] at e
    cases e
  · rw [h] at e
    cases e

theorem length_flatMap_cells {ls : List Line} (formed : ∀ line ∈ ls, line.Formed) :
    (ls.flatMap Line.cells).length = total ls := by
  rw [← map_snd_numbered 1 ls, List.length_map, length_numbered formed]

theorem length_of_image {ls : List Line} {program : List UInt8} (placed : Placed ls)
    (image : Image ls program) : program.length = total ls := by
  rw [← List.Forall₂.length_eq image, length_flatMap_cells placed.formed]

theorem length_of_ok {source : List Char} {program : List UInt8}
    (h : assemble source = .ok program) : program.length ≤ 256 := by
  obtain ⟨ok, image⟩ := acceptable_of_ok h
  rw [length_of_image ok.toPlaced image]
  exact ok.fits

theorem ok_of_acceptable {source : List Char} (ok : Acceptable (sourceLines source)) :
    ∃ program, assemble source = .ok program := by
  have free := acceptable_iff.mp ok
  rcases assemble_outcome source with ⟨p, -, -, e⟩ | ⟨n, cause, first, -⟩ | ⟨n, name, -, first, -⟩
  · exact ⟨p, e⟩
  · exact absurd first.1 (free.1 n cause)
  · exact absurd (first.symm.trans free.2) (by simp)

theorem causes_of_error {source : List Char} {n : Nat} {cause : Cause}
    (h : assemble source = .error ⟨n, cause⟩) :
    FirstOffends (sourceLines source) n cause ∨ (Faultless (sourceLines source) ∧
      ∃ name, cause = .undefinedLabel name ∧ FirstUndefined (sourceLines source) n name) := by
  rcases assemble_outcome source with ⟨p, -, -, e⟩ | ⟨k, c, first, e⟩ | ⟨k, name, clean, first, e⟩
  · rw [h] at e
    cases e
  · rw [h] at e
    cases e
    exact .inl first
  · rw [h] at e
    cases e
    exact .inr ⟨clean, name, rfl, first⟩

theorem error_of_firstOffends {source : List Char} {n : Nat} {cause : Cause}
    (h : FirstOffends (sourceLines source) n cause) : assemble source = .error ⟨n, cause⟩ := by
  rcases assemble_outcome source with ⟨p, ok, -, -⟩ | ⟨k, c, first, e⟩ | ⟨k, name, clean, -, -⟩
  · exact absurd h.1 ((acceptable_iff.mp ok).1 n cause)
  · obtain ⟨rfl, rfl⟩ := firstOffends_unique h first
    exact e
  · exact absurd h.1 (clean n cause)

theorem error_of_firstUndefined {source : List Char} {n : Nat} {name : List Char}
    (clean : Faultless (sourceLines source)) (h : FirstUndefined (sourceLines source) n name) :
    assemble source = .error ⟨n, .undefinedLabel name⟩ := by
  rcases assemble_outcome source with ⟨p, ok, -, -⟩ | ⟨k, c, first, -⟩ | ⟨k, name', -, first, e⟩
  · exact absurd (h.symm.trans (acceptable_iff.mp ok).2) (by simp)
  · exact absurd first.1 (clean k c)
  · cases h.symm.trans first
    exact e

theorem stands_of_image {ls : List Line} {program : List UInt8} (image : Image ls program) {i : Nat}
    {c : Cell} (h : (ls.flatMap Line.cells)[i]? = some c) :
    ∃ b, program[i]? = some b ∧ Stands ls c b := by
  obtain ⟨length, each⟩ := List.forall₂_iff_get.mp image
  obtain ⟨inside, rfl⟩ := List.getElem?_eq_some_iff.mp h
  exact ⟨_, List.getElem?_eq_getElem (length ▸ inside), each i inside (length ▸ inside)⟩

theorem acceptable_of_image {ls : List Line} {program : List UInt8} (placed : Placed ls)
    (image : Image ls program) : Acceptable ls := by
  refine ⟨placed, fun n name used => ?_⟩
  obtain ⟨i, at_place⟩ := List.getElem?_of_mem (label_mem_cells used)
  obtain ⟨b, -, stands⟩ := stands_of_image image at_place
  exact mem_labels.mpr ⟨_, stands⟩

theorem assemble_of_image {source : List Char} {program : List UInt8}
    (placed : Placed (sourceLines source)) (image : Image (sourceLines source) program) :
    assemble source = .ok program := by
  obtain ⟨made, h⟩ := ok_of_acceptable (acceptable_of_image placed image)
  rw [h, image_unique placed (acceptable_of_ok h).2 image]

end Ls8.Assembly
