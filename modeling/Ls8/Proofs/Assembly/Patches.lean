import Ls8.Proofs.Assembly.TwoPass

/-! The notes of the first pass. After every whole line there is one note for each byte that waits
for an address, in the order of the places, and a zero in that place. So the second pass writes
inside the output, each note to a place of its own, and could take the notes in any order. -/
namespace Ls8.Assembly

/-- Byte `i` of the line is a value that is given by a label: all of a `DB`, or the last of an
`LDI`, where an opcode and a register stand before it. -/
def Line.Awaits (line : Line) (i : Nat) (label : List Char) : Prop :=
  ∃ name given v, line.statement = some (name, given) ∧ value v = .ok (.label label) ∧
    ((name = "DB".toList ∧ given = [v] ∧ i = 0) ∨
      (opcode? name = some .ldi ∧ given[1]? = some v ∧ i = 2))

def Noted (ls : List Line) (p : Patch) : Prop :=
  ∃ done line rest i, ls = done ++ line :: rest ∧ line.Awaits i p.label ∧
    p.place = total done + i ∧ p.line = done.length + 1

/-- What holds between two lines of the first pass. Within a line it does not: a note is made
before the byte that it is about. -/
structure Draft.Tidy (d : Draft) (ls : List Line) : Prop where
  length : d.output.length = total ls
  room : d.output.length ≤ 256
  increasing : d.pending.Pairwise fun p q => p.place < q.place
  noted : ∀ p, p ∈ d.pending ↔ Noted ls p
  waits : ∀ p ∈ d.pending, d.output[p.place]? = some 0
  symbols : ∀ label a, (label, a) ∈ d.labels ↔ Defines ls label a.toNat
  reachable : ∀ label place, Defines ls label place → place ≤ 255 ∧ place ≤ d.output.length

theorem operand_label {op : Opcode} {i : Nat} {s label : List Char} :
    operand op i s = .ok (.label label) ↔ op = .ldi ∧ i = 1 ∧ value s = .ok (.label label) := by
  unfold operand register
  split
  · next immediate => simp [immediate]
  · next other =>
    constructor
    · intro read
      split at read <;> cases read
    · rintro ⟨data, second, -⟩
      exact absurd ⟨data, second⟩ other

theorem data_label {v label : List Char} {i : Nat} :
    (readings "DB".toList [v])[i]? = some (.ok (.label label)) ↔
      value v = .ok (.label label) ∧ i = 0 := by
  have only : readings "DB".toList [v] = [value v] := rfl
  rw [only, List.getElem?_singleton]
  by_cases first : i = 0 <;> simp [first]

theorem instruction_label {name : List Char} {given : List (List Char)} {op : Opcode}
    {label : List Char} {i : Nat} (other : name ≠ "DB".toList) (known : opcode? name = some op)
    (count : given.length = op.operandCount) :
    (readings name given)[i]? = some (.ok (.label label)) ↔
      op = .ldi ∧ i = 2 ∧ ∃ v, given[1]? = some v ∧ value v = .ok (.label label) := by
  have bytes : readings name given = .ok (.byte op.byte) :: given.mapIdx (operand op) := by
    simp only [readings, if_neg other, known, if_pos count]
  rw [bytes]
  cases i with
  | zero => simp
  | succ i =>
    rw [List.getElem?_cons_succ, List.getElem?_mapIdx, Option.map_eq_some_iff]
    simp only [operand_label]
    constructor
    · rintro ⟨v, at_place, rfl, rfl, named⟩
      exact ⟨rfl, rfl, v, at_place, named⟩
    · rintro ⟨rfl, second, v, at_place, named⟩
      obtain rfl : i = 1 := by omega
      exact ⟨v, at_place, rfl, rfl, named⟩

theorem readings_label {line : Line} (formed : line.Formed) {i : Nat} {label : List Char} :
    line.readings[i]? = some (.ok (.label label)) ↔ line.Awaits i label := by
  have unlisted : opcode? "DB".toList = none := by decide
  obtain ⟨named, statement⟩ := line
  cases statement with
  | none => simp [Line.readings, Line.Awaits]
  | some words =>
    obtain ⟨name, given⟩ := words
    by_cases data : name = "DB".toList
    · obtain ⟨v, c, rfl, -⟩ : ∃ v c, given = [v] ∧ value v = .ok c := by
        simpa only [Line.Formed, if_pos data] using formed
      subst data
      refine data_label.trans ⟨?_, ?_⟩
      · rintro ⟨read, first⟩
        exact ⟨_, _, v, rfl, read, .inl ⟨rfl, rfl, first⟩⟩
      · rintro ⟨_, _, w, ⟨⟩, read, ⟨-, ⟨⟩, first⟩ | ⟨known, -⟩⟩
        · exact ⟨read, first⟩
        · rw [unlisted] at known
          cases known
    · simp only [Line.Formed, if_neg data] at formed
      obtain ⟨op, known, count, -⟩ := formed
      refine (instruction_label data known count).trans ⟨?_, ?_⟩
      · rintro ⟨rfl, last, v, at_place, read⟩
        exact ⟨name, given, v, rfl, read, .inr ⟨known, at_place, last⟩⟩
      · rintro ⟨_, _, v, ⟨⟩, read, ⟨same, -⟩ | ⟨same, at_place, last⟩⟩
        · exact absurd same data
        · exact ⟨Option.some.inj (known.symm.trans same), last, v, at_place, read⟩

theorem cells_label {line : Line} (formed : line.Formed) {i : Nat} {label : List Char} :
    line.cells[i]? = some (.label label) ↔ line.Awaits i label := by
  rw [← readings_label formed, Line.readings_of_formed formed, List.getElem?_map,
    Option.map_eq_some_iff]
  simp

theorem mem_patches {start : Nat} {cells : List (Nat × Cell)} {p : Patch} :
    p ∈ patches start cells ↔
      ∃ i, cells[i]? = some (p.line, .label p.label) ∧ p.place = start + i := by
  simp only [patches, List.mem_filterMap, Prod.exists, List.mem_zipIdx_iff_le_and_getElem?_sub]
  constructor
  · rintro ⟨n, c, place, ⟨above, at_place⟩, shown⟩
    cases c with
    | byte b => cases shown
    | label name =>
      cases shown
      exact ⟨place - start, at_place, (Nat.add_sub_cancel' above).symm⟩
  · rintro ⟨i, at_place, place⟩
    refine ⟨p.line, .label p.label, p.place, ⟨by omega, ?_⟩, rfl⟩
    rw [place, Nat.add_sub_cancel_left, at_place]

theorem patches_increasing (start : Nat) (cells : List (Nat × Cell)) :
    (patches start cells).Pairwise fun p q => p.place < q.place := by
  induction cells generalizing start with
  | nil => exact .nil
  | cons cell cells ih =>
    obtain ⟨n, c⟩ := cell
    cases c with
    | byte b => exact ih (start + 1)
    | label name =>
      refine List.pairwise_cons.mpr ⟨fun q later => ?_, ih (start + 1)⟩
      obtain ⟨i, -, place⟩ := mem_patches.mp later
      simp only [place]
      omega

theorem mem_patches_line {line : Line} (formed : line.Formed) {start n : Nat} {p : Patch} :
    p ∈ patches start (line.cells.map fun c => (n, c)) ↔
      ∃ i, line.Awaits i p.label ∧ p.place = start + i ∧ p.line = n := by
  rw [mem_patches]
  refine exists_congr fun i => ?_
  rw [← cells_label formed, List.getElem?_map]
  constructor
  · rintro ⟨at_place, place⟩
    obtain ⟨c, cell, same⟩ := Option.map_eq_some_iff.mp at_place
    obtain ⟨number, rfl⟩ := Prod.mk.inj same
    exact ⟨cell, place, number.symm⟩
  · rintro ⟨cell, place, number⟩
    rw [cell, number]
    exact ⟨rfl, place⟩

theorem noted_append_one {ls : List Line} {line : Line} {p : Patch} :
    Noted (ls ++ [line]) p ↔ Noted ls p ∨
      ∃ i, line.Awaits i p.label ∧ p.place = total ls + i ∧ p.line = ls.length + 1 := by
  simp only [Noted, split_append_one]
  constructor
  · rintro ⟨done, l, rest, i, ⟨rest', rfl, rfl⟩ | ⟨rfl, rfl, rfl⟩, awaits, place, number⟩
    · exact .inl ⟨done, l, rest', i, rfl, awaits, place, number⟩
    · exact .inr ⟨i, awaits, place, number⟩
  · rintro (⟨done, l, rest, i, rfl, awaits, place, number⟩ | ⟨i, awaits, place, number⟩)
    · exact ⟨done, l, rest ++ [line], i, .inl ⟨rest, rfl, rfl⟩, awaits, place, number⟩
    · exact ⟨ls, line, [], i, .inr ⟨rfl, rfl, rfl⟩, awaits, place, number⟩

theorem mem_pending {ls : List Line} (formed : ∀ line ∈ ls, line.Formed) (p : Patch) :
    p ∈ (draftOf ls).pending ↔ Noted ls p := by
  induction ls using List.reverseRecOn with
  | nil => simp [draftOf, sketch, numbered, patches, Noted]
  | append_singleton ls line ih =>
    have before : ∀ l ∈ ls, l.Formed := fun l member => formed l (List.mem_append_left _ member)
    have last : line.Formed := formed line (by simp)
    have pending : (draftOf (ls ++ [line])).pending =
        (draftOf ls).pending ++
          patches (total ls) (line.cells.map fun c => (ls.length + 1, c)) := by
      rw [draftOf_append_one, sketch, patches_append, length_numbered before, Nat.zero_add]
      rfl
    rw [pending, List.mem_append, ih before, mem_patches_line last, noted_append_one]

theorem length_draftOf {ls : List Line} (formed : ∀ line ∈ ls, line.Formed) :
    (draftOf ls).output.length = total ls := by
  rw [draftOf, sketch, List.length_map, length_numbered formed]

theorem le_total_of_defines {ls : List Line} {label : List Char} {a : Nat}
    (place : Defines ls label a) : a ≤ total ls := by
  obtain ⟨done, line, rest, rfl, -, rfl⟩ := place
  rw [total_append]
  exact Nat.le_add_right _ _

theorem tidy_draftOf {ls : List Line} (placed : Placed ls) : (draftOf ls).Tidy ls where
  length := length_draftOf placed.formed
  room := (length_draftOf placed.formed).trans_le placed.fits
  increasing := patches_increasing 0 (numbered 1 ls)
  noted := mem_pending placed.formed
  waits p member := by
    obtain ⟨i, at_place, place⟩ := mem_patches.mp member
    rw [place, Nat.zero_add, draftOf, sketch, List.getElem?_map, at_place]
    rfl
  symbols label a := by
    rw [draftOf, sketch, mem_table]
    constructor
    · rintro ⟨place, defines, rfl⟩
      have value : place.toUInt8.toNat = place :=
        Nat.mod_eq_of_lt (placed.reachable label place defines)
      rwa [value]
    · intro defines
      exact ⟨a.toNat, defines, UInt8.ofNat_toNat.symm⟩
  reachable label place defines := by
    rw [length_draftOf placed.formed]
    exact ⟨Nat.le_of_lt_succ (placed.reachable label place defines), le_total_of_defines defines⟩

theorem addLines_append (d : Draft) (n : Nat) (xs ys : List Line) :
    d.addLines n (xs ++ ys) = (d.addLines n xs).bind fun d' => d'.addLines (n + xs.length) ys := by
  induction xs generalizing d n with
  | nil => rfl
  | cons line xs ih =>
    simp only [List.cons_append, Draft.addLines, List.length_cons]
    cases d.addLine n line with
    | ok d' =>
      have number : n + (xs.length + 1) = n + 1 + xs.length := by omega
      rw [number]
      exact ih d' (n + 1)
    | error cause => rfl

theorem draftOf_of_addLines {ls : List Line} {d : Draft}
    (reached : Draft.empty.addLines 1 ls = .ok d) : Placed ls ∧ d = draftOf ls := by
  rcases addLines_draftOf ls faultless_nil with ⟨clean, drafted⟩ | ⟨n, cause, -, -, failed⟩
  · exact ⟨(faultless_iff_placed ls).mp clean, Except.ok.inj (reached.symm.trans drafted)⟩
  · cases reached.symm.trans failed

namespace Draft

def put (d : Draft) (output : List UInt8) (p : Patch) : List UInt8 :=
  output.set p.place ((d.address? p.label).getD 0)

variable {d : Draft} {output program : List UInt8} {ps qs : List Patch}

theorem patch_ok_iff : d.patch output ps = .ok program ↔
    (∀ p ∈ ps, (d.address? p.label).isSome) ∧ program = ps.foldl d.put output := by
  induction ps generalizing output with
  | nil =>
    rw [patch, Except.ok.injEq, List.foldl_nil, eq_comm]
    simp
  | cons p ps ih =>
    rw [patch, List.foldl_cons, List.forall_mem_cons]
    cases known : d.address? p.label with
    | none => simp
    | some a => simp [ih, put, known]

theorem undefined_of_patch_error {e : Error} (failed : d.patch output ps = .error e) :
    ∃ p ∈ ps, d.address? p.label = none ∧ e = ⟨p.line, .undefinedLabel p.label⟩ := by
  induction ps generalizing output with
  | nil => cases failed
  | cons p ps ih =>
    rw [patch] at failed
    split at failed
    · obtain ⟨q, later, missing, same⟩ := ih failed
      exact ⟨q, List.mem_cons_of_mem p later, missing, same⟩
    · next missing =>
      cases failed
      exact ⟨p, List.mem_cons_self, missing, rfl⟩

theorem length_puts : (ps.foldl d.put output).length = output.length := by
  induction ps generalizing output with
  | nil => rfl
  | cons p ps ih =>
    rw [List.foldl_cons, ih, put, List.length_set]

theorem puts_elsewhere {i : Nat} (elsewhere : ∀ p ∈ ps, p.place ≠ i) :
    (ps.foldl d.put output)[i]? = output[i]? := by
  induction ps generalizing output with
  | nil => rfl
  | cons p ps ih =>
    obtain ⟨here, later⟩ := List.forall_mem_cons.mp elsewhere
    rw [List.foldl_cons, ih later, put, List.getElem?_set_ne here]

/-- A byte is put once, so what is put stays. -/
theorem puts_here (increasing : ps.Pairwise fun p q => p.place < q.place) {p : Patch}
    (member : p ∈ ps) (inside : p.place < output.length) :
    (ps.foldl d.put output)[p.place]? = some ((d.address? p.label).getD 0) := by
  induction ps generalizing output with
  | nil => cases member
  | cons q ps ih =>
    obtain ⟨first, rest⟩ := List.pairwise_cons.mp increasing
    rw [List.foldl_cons]
    rcases List.mem_cons.mp member with rfl | later
    · rw [puts_elsewhere fun q later => Nat.ne_of_gt (first q later), put,
        List.getElem?_set_self inside]
    · exact ih rest later (by rwa [put, List.length_set])

theorem put_comm {p q : Patch} (apart : p.place = q.place → p = q) (output : List UInt8) :
    d.put (d.put output p) q = d.put (d.put output q) p := by
  by_cases same : p.place = q.place
  · rw [apart same]
  · exact List.set_comm _ _ same

theorem puts_perm (perm : ps.Perm qs)
    (apart : ∀ p ∈ ps, ∀ q ∈ ps, p.place = q.place → p = q) :
    ps.foldl d.put output = qs.foldl d.put output :=
  perm.foldl_eq' (fun p one q other output => put_comm (apart p one q other) output) output

end Draft

namespace Draft.Tidy

variable {d : Draft} {ls : List Line} {ps : List Patch} {program : List UInt8} {p : Patch}

theorem inside (tidy : d.Tidy ls) (member : p ∈ d.pending) : p.place < d.output.length :=
  (List.getElem?_eq_some_iff.mp (tidy.waits p member)).1

theorem apart (tidy : d.Tidy ls) :
    ∀ p ∈ d.pending, ∀ q ∈ d.pending, p.place = q.place → p = q := by
  have distinct : (d.pending.map Patch.place).Nodup :=
    List.pairwise_map.mpr (tidy.increasing.imp Nat.ne_of_lt)
  intro p one q other same
  exact List.inj_on_of_nodup_map distinct one other same

theorem inside_patched (tidy : d.Tidy ls) {front back : List Patch} {output : List UInt8}
    (perm : (front ++ p :: back).Perm d.pending) (patched : d.patch d.output front = .ok output) :
    p.place < output.length := by
  obtain ⟨-, rfl⟩ := patch_ok_iff.mp patched
  rw [length_puts]
  exact tidy.inside (perm.mem_iff.mp (by simp))

theorem patch_perm (tidy : d.Tidy ls) (perm : ps.Perm d.pending) :
    d.patch d.output ps = .ok program ↔ d.resolve = .ok program := by
  have same : ps.foldl d.put d.output = d.pending.foldl d.put d.output :=
    (puts_perm perm.symm tidy.apart).symm
  rw [resolve, patch_ok_iff, patch_ok_iff, same]
  simp only [perm.mem_iff]

theorem resolved (tidy : d.Tidy ls) (done : d.resolve = .ok program) :
    program.length = d.output.length ∧
      (∀ i, (∀ p ∈ d.pending, p.place ≠ i) → program[i]? = d.output[i]?) ∧
      ∀ p ∈ d.pending, program[p.place]? = d.address? p.label := by
  obtain ⟨known, rfl⟩ := patch_ok_iff.mp done
  refine ⟨length_puts, fun i elsewhere => puts_elsewhere elsewhere, fun p member => ?_⟩
  obtain ⟨a, address⟩ := Option.isSome_iff_exists.mp (known p member)
  rw [puts_here tidy.increasing member (tidy.inside member), address, Option.getD_some]

end Draft.Tidy

/-- Between any two lines the notes are in order. Patching then stays inside the output, changes
the bytes that wait for an address and no others, and does so in any order; what the order decides
is which undefined label is reported. -/
theorem patches_tidy (source : List Char) (done rest : List Line) (d : Draft)
    (split : sourceLines source = done ++ rest)
    (reached : Draft.empty.addLines 1 done = .ok d) :
    draft source = d.addLines (done.length + 1) rest ∧ d.Tidy done ∧
      (∀ front p back output, (front ++ p :: back).Perm d.pending →
        d.patch d.output front = .ok output → p.place < output.length) ∧
      (∀ program, d.resolve = .ok program → program.length = d.output.length ∧
        (∀ i, (∀ p ∈ d.pending, p.place ≠ i) → program[i]? = d.output[i]?) ∧
        ∀ p ∈ d.pending, program[p.place]? = d.address? p.label) ∧
      (∀ ps, ps.Perm d.pending → ∀ program,
        d.patch d.output ps = .ok program ↔ d.resolve = .ok program) ∧
      ∀ ps e, ps.Perm d.pending → d.patch d.output ps = .error e →
        ∃ p ∈ d.pending, d.address? p.label = none ∧ e = ⟨p.line, .undefinedLabel p.label⟩ := by
  have tidy : d.Tidy done := by
    obtain ⟨placed, rfl⟩ := draftOf_of_addLines reached
    exact tidy_draftOf placed
  refine ⟨?_, tidy, fun _ _ _ _ => tidy.inside_patched, fun _ => tidy.resolved,
    fun _ perm _ => tidy.patch_perm perm, ?_⟩
  · rw [draft, split, addLines_append, reached, Nat.add_comm]
    rfl
  · intro ps e perm failed
    obtain ⟨p, member, undefined⟩ := Draft.undefined_of_patch_error failed
    exact ⟨p, perm.mem_iff.mp member, undefined⟩

def twoUses : List Char := "LDI R0,END\nDB NEXT\nNEXT: DB 9\nEND: HLT".toList

def twoUsesDraft : Draft :=
  ⟨[("END".toList, 5), ("NEXT".toList, 4)], [0x82, 0, 0, 0, 9, 1],
    [⟨2, "END".toList, 1⟩, ⟨3, "NEXT".toList, 2⟩]⟩

/-- Both labels come after their uses, and the later use is patched first. -/
theorem patches_tidy_twoUses :
    Draft.empty.addLines 1 (sourceLines twoUses) = .ok twoUsesDraft ∧
      twoUsesDraft.resolve = .ok [0x82, 0, 5, 4, 9, 1] ∧
      twoUsesDraft.patch twoUsesDraft.output twoUsesDraft.pending.reverse =
        .ok [0x82, 0, 5, 4, 9, 1] := by
  have reached : Draft.empty.addLines 1 (sourceLines twoUses) = .ok twoUsesDraft := by
    decide +kernel
  have resolved : twoUsesDraft.resolve = .ok [0x82, 0, 5, 4, 9, 1] := by decide +kernel
  obtain ⟨-, -, -, -, anyOrder, -⟩ :=
    patches_tidy twoUses (sourceLines twoUses) [] twoUsesDraft (List.append_nil _).symm reached
  exact ⟨reached, resolved, (anyOrder _ (List.reverse_perm _) _).mpr resolved⟩

end Ls8.Assembly
