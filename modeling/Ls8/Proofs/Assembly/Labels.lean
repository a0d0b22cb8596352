import Ls8.Proofs.Assembly.Gap
import Ls8.Proofs.Assembly.TwoPass

/-! A label that a source defines, put where a value of the source stands. There it is read as any
value is and not as the label that it is: as a number if it has the shape of one, as a name if it
has that shape, and else not at all. -/
namespace Ls8.Assembly

def TakesValue (name : List Char) : Prop := name = "DB".toList ∨ opcode? name = some .ldi

/-- What stands in the gap is the whole operand of its line that is read as a value. -/
structure Gap.Holds (g : Gap) (v : List Char) : Prop where
  feed : '\n' ∉ v
  operand : ∃ name init, (Line.read (g.line v)).statement = some (name, init ++ [v]) ∧
    TakesValue name

def Gap.place (g : Gap) (v : List Char) : Nat :=
  total (g.above.map Line.read) + (Line.read (g.line v)).size - 1

/-- A line of the source defines the label, in this spelling, and so many bytes come before it. -/
def LabelAt (source label : List Char) (a : Nat) : Prop :=
  ∃ done text rest front more, Text.lines source = done ++ text :: rest ∧
    Text.cut (· == ':') (code text) = some (front, more) ∧ label = Text.trim front ∧
    a = total (done.map Line.read)

theorem readings_data {given : List (List Char)} (other : given.length ≠ 1) :
    readings "DB".toList given = [.error .dataCount] := by
  match given with
  | [] => rfl
  | [v] => exact absurd rfl other
  | v :: w :: more => rfl

theorem readings_count {name : List Char} {given : List (List Char)} {op : Opcode}
    (data : name ≠ "DB".toList) (known : opcode? name = some op)
    (other : given.length ≠ op.operandCount) :
    readings name given = [.error (.operandCount op given.length)] := by
  unfold readings
  rw [if_neg data, known]
  exact if_neg other

/-- The last operand is the value and gives the last byte. Whatever else is put there, the bytes
before it are the same, as long as it is one operand. -/
theorem readings_with {name : List Char} {given : List (List Char)} (takes : TakesValue name)
    (good : ∀ r ∈ readings name given, ∃ c, r = .ok c) :
    ∃ init v c pre, given = init ++ [v] ∧ value v = .ok c ∧
      (∀ w, readings name (init ++ [w]) = pre ++ [value w]) ∧
      ∀ ws, ws.length ≠ 1 → ∃ cause, readings name (init ++ ws) = [.error cause] := by
  have counted {cause : Cause} : readings name given ≠ [.error cause] := by
    intro bad
    obtain ⟨c, e⟩ := good (.error cause) (by simp [bad])
    cases e
  by_cases data : name = "DB".toList
  · subst data
    have alone : given.length = 1 := by
      by_contra other
      exact counted (readings_data other)
    obtain ⟨v, rfl⟩ := List.length_eq_one_iff.mp alone
    obtain ⟨c, read⟩ := good (value v) (.head _)
    exact ⟨[], v, c, [], rfl, read, fun w => rfl, fun ws other => ⟨_, readings_data other⟩⟩
  · have ldi := takes.resolve_left data
    have count : Opcode.ldi.operandCount = 2 := rfl
    have two : given.length = 2 := by
      by_contra other
      exact counted (readings_count data ldi other)
    obtain ⟨r, v, rfl⟩ := List.length_eq_two.mp two
    have one (w : List Char) : readings name ([r] ++ [w]) =
        [.ok (.byte Opcode.ldi.byte), register r] ++ [value w] := by
      unfold readings
      rw [if_neg data, ldi]
      rfl
    obtain ⟨c, read⟩ := good (value v) (by rw [← List.singleton_append, one]; simp)
    refine ⟨[r], v, c, _, rfl, read, one, fun ws other => ⟨_, readings_count data ldi ?_⟩⟩
    simpa [count] using other

section

variable {xs ys : List Line} {x y : Line}

theorem addresses_exchange (label : y.label = x.label) (size : y.size = x.size) :
    addresses 0 (xs ++ y :: ys) = addresses 0 (xs ++ x :: ys) := by
  simp [addresses_append, addresses, label, size]

theorem defines_exchange (label : y.label = x.label) (size : y.size = x.size) {l : List Char}
    {a : Nat} : Defines (xs ++ y :: ys) l a ↔ Defines (xs ++ x :: ys) l a := by
  rw [← mem_addresses, addresses_exchange label size, mem_addresses]

theorem stands_exchange (label : y.label = x.label) (size : y.size = x.size) {c : Cell}
    {b : UInt8} : Stands (xs ++ y :: ys) c b ↔ Stands (xs ++ x :: ys) c b := by
  cases c with
  | byte b' => rfl
  | label name => exact defines_exchange label size

theorem placed_exchange (label : y.label = x.label) (size : y.size = x.size) (formed : y.Formed)
    (placed : Placed (xs ++ x :: ys)) : Placed (xs ++ y :: ys) := by
  have names : labels (xs ++ y :: ys) = labels (xs ++ x :: ys) := by
    rw [← map_fst_addresses 0, addresses_exchange label size, map_fst_addresses]
  have bytes : total (xs ++ y :: ys) = total (xs ++ x :: ys) := by simp [total, size]
  constructor
  · intro line member
    rcases List.mem_append.mp member with left | right
    · exact placed.formed line (List.mem_append_left _ left)
    · rcases List.mem_cons.mp right with rfl | later
      · exact formed
      · exact placed.formed line (List.mem_append_right _ (.tail _ later))
  · rw [names]
    exact placed.named
  · rw [names]
    exact placed.distinct
  · intro l a place
    exact placed.reachable l a ((defines_exchange label size).mp place)
  · rw [bytes]
    exact placed.fits

theorem forall₂_set {α β : Type} {R : α → β → Prop} {l : List α} {p : List β}
    (h : List.Forall₂ R l p) {a : α} {b : β} (r : R a b) (i : Nat) :
    List.Forall₂ R (l.set i a) (p.set i b) := by
  induction h generalizing i with
  | nil => exact .nil
  | cons first rest ih =>
    cases i with
    | zero => exact .cons r rest
    | succ i => exact .cons first (ih i)

theorem cells_before (placed : Placed (xs ++ x :: ys)) {pre : List Cell} {c : Cell}
    (cells : x.cells = pre ++ [c]) :
    (xs.flatMap Line.cells ++ pre).length = total xs + x.size - 1 := by
  have above : (xs.flatMap Line.cells).length = total xs :=
    length_flatMap_cells fun line member => placed.formed line (List.mem_append_left _ member)
  have here := Line.length_cells (placed.formed x (by simp))
  rw [cells, List.length_append, List.length_singleton] at here
  rw [List.length_append, above]
  omega

theorem image_exchange (label : y.label = x.label) (size : y.size = x.size)
    (placed : Placed (xs ++ x :: ys)) {pre : List Cell} {c c' : Cell} (cells : x.cells = pre ++ [c])
    (cells' : y.cells = pre ++ [c']) {program : List UInt8} {b : UInt8}
    (image : Image (xs ++ x :: ys) program) (stands : Stands (xs ++ x :: ys) c' b) :
    Image (xs ++ y :: ys) (program.set (total xs + x.size - 1) b) := by
  have same : Stands (xs ++ y :: ys) = Stands (xs ++ x :: ys) := by
    funext c b
    exact propext (stands_exchange label size)
  have before := cells_before placed cells
  have all (z : Line) (d : Cell) (cells : z.cells = pre ++ [d]) :
      (xs ++ z :: ys).flatMap Line.cells =
        (xs.flatMap Line.cells ++ pre) ++ d :: ys.flatMap Line.cells := by
    simp [cells]
  unfold Image at image ⊢
  rw [all x c cells] at image
  rw [same, all y c' cells', ← before]
  simpa using forall₂_set image stands (xs.flatMap Line.cells ++ pre).length

end

theorem pieces_of_value {v : List Char} {c : Cell} (h : value v = .ok c) :
    (Text.pieces (· == ',') v).map Text.trim = [v] := by
  rw [Text.pieces_of_free (value_free h (by decide) (by decide)), List.map_singleton,
    Text.trim_bare (whole_of_value h).bare]

/-- All that the text in a gap decides is what the operands from there on are. -/
theorem Gap.Holds.read {g : Gap} {v : List Char} (holds : g.Holds v)
    (formed : (Line.read (g.line v)).Formed) :
    ∃ name init c pre, value v = .ok c ∧
      (∀ w, readings name (init ++ [w]) = pre ++ [value w]) ∧
      (∀ ws, ws.length ≠ 1 → ∃ cause, readings name (init ++ ws) = [.error cause]) ∧
      ∀ u, Whole u → Line.read (g.line u) =
        ⟨g.stem.1, some (name, init ++ (Text.pieces (· == ',') u).map Text.trim)⟩ := by
  obtain ⟨-, name, given, statement, takes⟩ := holds
  have good := (Line.formed_iff _).mp formed
  rw [Line.readings, statement] at good
  obtain ⟨init, v', c, pre, last, read, one, several⟩ := readings_with takes good
  obtain ⟨rfl, same⟩ := List.append_inj' last rfl
  cases same
  refine ⟨name, given, c, pre, read, one, several, fun u whole => ?_⟩
  have cut : split (g.stem.2 ++ v) = (name, given ++ [v]) := by
    rw [read_line g (whole_of_value read)] at statement
    exact Option.some.inj statement
  rw [read_line g whole, split_append read cut whole.bare whole.some_char]

/-- What a line becomes with the text `u` where its value was. If this is read as a value, the last
cell is another one; if not, the line cannot be assembled. -/
structure Exchanged (x y : Line) (pre : List Cell) (u : List Char) : Prop where
  label : y.label = x.label
  size : y.size = x.size
  cells : ∀ c, value u = .ok c → y.Formed ∧ y.cells = pre ++ [c]
  value_ok : y.Formed → ∃ c, value u = .ok c

theorem Gap.Holds.exchange {g : Gap} {v : List Char} (holds : g.Holds v)
    (formed : (Line.read (g.line v)).Formed) :
    ∃ c pre, value v = .ok c ∧ (Line.read (g.line v)).cells = pre ++ [c] ∧
      ∀ u, Whole u → Exchanged (Line.read (g.line v)) (Line.read (g.line u)) pre u := by
  obtain ⟨name, init, c, pre, read, one, several, lines⟩ := holds.read formed
  have here := lines v (whole_of_value read)
  have valued (w : List Char) (d : Cell) (h : value w = .ok d) :
      (Line.read (g.line w)).readings = pre ++ [.ok d] := by
    rw [lines w (whole_of_value h), pieces_of_value h, ← h]
    exact one w
  have good (r) (member : r ∈ pre) : ∃ c, r = Except.ok c := by
    apply (Line.formed_iff _).mp formed
    rw [valued v c read]
    exact List.mem_append_left _ member
  have cells (w : List Char) (d : Cell) (h : value w = .ok d) :
      (Line.read (g.line w)).cells = pre.filterMap Except.toOption ++ [d] := by
    rw [Line.cells, valued w d h, List.filterMap_append]
    rfl
  refine ⟨c, pre.filterMap Except.toOption, read, cells v c read, fun u whole => ?_⟩
  refine ⟨by rw [lines u whole, here], by rw [lines u whole, here]; rfl, ?_, ?_⟩
  · intro c' read'
    refine ⟨(Line.formed_iff _).mpr fun r member => ?_, cells u c' read'⟩
    rw [valued u c' read'] at member
    rcases List.mem_append.mp member with before | last
    · exact good r before
    · exact ⟨c', List.mem_singleton.mp last⟩
  · intro formed'
    have good' := (Line.formed_iff _).mp formed'
    rw [lines u whole] at good'
    by_cases alone : (Text.pieces (· == ',') u).length = 1
    · obtain ⟨w, e⟩ := List.length_eq_one_iff.mp alone
      obtain ⟨rfl, -⟩ := Text.pieces_eq_singleton e
      apply good' (value u)
      rw [e, List.map_singleton, Text.trim_bare whole.bare]
      simp [Line.readings, one]
    · obtain ⟨cause, bad⟩ :=
        several ((Text.pieces (· == ',') u).map Text.trim) (by simpa using alone)
      obtain ⟨d, e⟩ := good' (.error cause) (by simp [Line.readings, bad])
      cases e

theorem whole_of_labelAt {source label : List Char} {a : Nat} (h : LabelAt source label a)
    (placed : Placed (sourceLines source)) :
    Whole label ∧ Defines (sourceLines source) (Text.upper label) a := by
  obtain ⟨done, text, rest, front, more, split, cut, rfl, rfl⟩ := h
  obtain ⟨colon, isColon, free, whole⟩ := Text.cut_eq_some.mp cut
  have lines : sourceLines source =
      done.map Line.read ++ Line.read text :: rest.map Line.read := by
    rw [sourceLines, split, List.map_append, List.map_cons]
  have named : (Line.read text).label = some (Text.upper (Text.trim front)) := by
    rw [Line.read, cut]
  have defined : Defines (sourceLines source) (Text.upper (Text.trim front))
      (total (done.map Line.read)) := ⟨_, _, _, lines, named, rfl⟩
  have inside (c : Char) (h : c ∈ Text.trim front) : c ∈ Text.before isComment text := by
    apply Text.mem_of_mem_trim
    change c ∈ code text
    rw [whole]
    exact List.mem_append_left _ (Text.mem_of_mem_trim h)
  refine ⟨⟨Text.bare_trim front, ?_, ?_, ?_, ?_⟩, defined⟩
  · intro empty
    rw [empty] at defined
    exact placed.named [] (mem_labels.mpr ⟨_, defined⟩) rfl
  · exact fun c h => free c (Text.mem_of_mem_trim h)
  · exact fun c h => Text.free_before c (inside c h)
  · intro feed
    have member : text ∈ Text.lines source := by simp [split]
    exact Text.feed_not_mem_of_mem_linesBy member ((List.takeWhile_sublist _).mem (inside _ feed))

section

variable {g : Gap} {u v : List Char} {program : List UInt8}

theorem Gap.Holds.lines (holds : g.Holds v) :
    sourceLines (g.fill v) =
      g.above.map Line.read ++ Line.read (g.line v) :: g.below.elim [] sourceLines := by
  obtain ⟨feed, name, init, statement, -⟩ := holds
  apply Gap.sourceLines_fill feed
  intro empty
  rw [empty] at statement
  cases statement

theorem sourceLines_whole (g : Gap) (whole : Whole u) :
    sourceLines (g.fill u) =
      g.above.map Line.read ++ Line.read (g.line u) :: g.below.elim [] sourceLines :=
  Gap.sourceLines_fill whole.feed (by simp [Gap.line, whole.some_char])

theorem stands_at_place (assembled : assemble (g.fill v) = .ok program) (holds : g.Holds v) :
    ∃ b c, program[g.place v]? = some b ∧ value v = .ok c ∧
      Stands (sourceLines (g.fill v)) c b := by
  obtain ⟨ok, image⟩ := acceptable_of_ok assembled
  have placed := ok.toPlaced
  have lines := holds.lines
  rw [lines] at placed image
  obtain ⟨c, pre, read, cells, -⟩ := holds.exchange (placed.formed _ (by simp))
  have at_place : ((g.above.map Line.read ++ Line.read (g.line v) ::
      g.below.elim [] sourceLines).flatMap Line.cells)[g.place v]? = some c := by
    rw [Gap.place, ← cells_before placed cells]
    simp [cells]
  obtain ⟨b, found, stands⟩ := stands_of_image image at_place
  exact ⟨b, c, found, read, lines ▸ stands⟩

/-- Another value in the gap changes the byte at its place and no other. -/
theorem assemble_fill {c : Cell} {b : UInt8} (assembled : assemble (g.fill v) = .ok program)
    (holds : g.Holds v) (read : value u = .ok c) (stands : Stands (sourceLines (g.fill v)) c b) :
    assemble (g.fill u) = .ok (program.set (g.place v) b) := by
  obtain ⟨ok, image⟩ := acceptable_of_ok assembled
  have placed := ok.toPlaced
  rw [holds.lines] at placed image stands
  obtain ⟨c₀, pre, -, cells, others⟩ := holds.exchange (placed.formed _ (by simp))
  have exchanged := others u (whole_of_value read)
  obtain ⟨formed, cells'⟩ := exchanged.cells c read
  apply assemble_of_image <;> rw [sourceLines_whole g (whole_of_value read)]
  · exact placed_exchange exchanged.label exchanged.size formed placed
  · exact image_exchange exchanged.label exchanged.size placed cells cells' image stands

/-- A text in the gap that cannot be read as a value is refused on its line. -/
theorem assemble_fill_unread (assembled : assemble (g.fill v) = .ok program) (holds : g.Holds v)
    (whole : Whole u) (unread : ∀ c, value u ≠ .ok c) :
    ∃ cause, assemble (g.fill u) = .error ⟨g.above.length + 1, cause⟩ := by
  obtain ⟨ok, -⟩ := acceptable_of_ok assembled
  have clean := (acceptable_iff.mp ok).1
  have placed := ok.toPlaced
  rw [holds.lines] at clean placed
  obtain ⟨c, pre, -, -, others⟩ := holds.exchange (placed.formed _ (by simp))
  have unformed : ¬ (Line.read (g.line u)).Formed := by
    intro formed
    obtain ⟨c', read⟩ := (others u whole).value_ok formed
    exact unread c' read
  obtain ⟨cause, wrong⟩ : ∃ cause, (Line.read (g.line u)).fault (labels (g.above.map Line.read))
      (total (g.above.map Line.read)) = some cause := by
    rw [← Option.ne_none_iff_exists']
    intro right
    exact unformed (Line.fault_eq_none.mp right).2.1
  refine ⟨cause, error_of_firstOffends ⟨⟨_, _, _, sourceLines_whole g whole, by simp, wrong⟩, ?_⟩⟩
  intro n earlier cause' offends
  rw [sourceLines_whole g whole] at offends
  have above := offends_of_append offends (by simpa using Nat.le_of_lt_succ earlier)
  exact clean n cause' (offends_append _ above)

/-- A label of the source gives its address in the gap exactly if it is read as a name there, or as
the number that is its address. -/
theorem assemble_fill_label {label : List Char} {a : Nat}
    (assembled : assemble (g.fill v) = .ok program) (holds : g.Holds v)
    (named : LabelAt (g.fill v) label a) :
    assemble (g.fill label) = .ok (program.set (g.place v) a.toUInt8) ↔
      isName label = true ∨ value label = .ok (.byte a.toUInt8) := by
  have placed := (acceptable_of_ok assembled).1.toPlaced
  obtain ⟨whole, defined⟩ := whole_of_labelAt named placed
  constructor
  · intro same
    by_cases valued : ∃ c, value label = .ok c
    · obtain ⟨c, read⟩ := valued
      rcases value_cases read with ⟨b, i, rfl, -⟩ | ⟨-, name⟩
      · have both := (assemble_fill assembled holds read rfl).symm.trans same
        obtain ⟨b₀, c₀, found, -⟩ := stands_at_place assembled holds
        obtain ⟨inside, -⟩ := List.getElem?_eq_some_iff.mp found
        have bytes := congrArg (·[g.place v]?) (Except.ok.inj both)
        simp only [List.getElem?_set_self inside, Option.some.injEq] at bytes
        exact .inr (bytes ▸ read)
      · exact .inl name
    · obtain ⟨cause, refused⟩ :=
        assemble_fill_unread assembled holds whole fun c read => valued ⟨c, read⟩
      rw [same] at refused
      cases refused
  · rintro (name | read)
    · have address : Stands (sourceLines (g.fill v)) (.label (Text.upper label)) a.toUInt8 := by
        simpa [Stands, Nat.mod_eq_of_lt (placed.reachable _ a defined)] using defined
      exact assemble_fill assembled holds (value_of_isName name) address
    · exact assemble_fill assembled holds read rfl

end

/-- Every value of a source has its gap. A label of the source that is put there gives the same
bytes with its address at the place exactly if it has the shape of a name, or is a number and this
number is its address. A label that is another number silently gives this number, and one that is no
value is an error on the line. -/
theorem label_in_gap {source : List Char} {program : List UInt8}
    (assembled : assemble source = .ok program) :
    (∀ (n : Nat) (line : Line) (name : List Char) (given : List (List Char)),
      (sourceLines source)[n]? = some line → line.statement = some (name, given) →
      TakesValue name → ∃ (g : Gap) (v : List Char),
        g.fill v = source ∧ g.above.length = n ∧ g.Holds v) ∧
    ∀ (g : Gap) (v label : List Char) (a : Nat), g.fill v = source → g.Holds v →
      LabelAt source label a →
        a < 256 ∧
        (∃ b c, program[g.place v]? = some b ∧ value v = .ok c ∧
          Stands (sourceLines source) c b) ∧
        (assemble (g.fill label) = .ok (program.set (g.place v) a.toUInt8) ↔
          isName label = true ∨ value label = .ok (.byte a.toUInt8)) ∧
        (∀ b, value label = .ok (.byte b) →
          assemble (g.fill label) = .ok (program.set (g.place v) b)) ∧
        ((∀ c, value label ≠ .ok c) →
          ∃ cause, assemble (g.fill label) = .error ⟨g.above.length + 1, cause⟩) := by
  have placed := (acceptable_of_ok assembled).1.toPlaced
  constructor
  · intro n line name given at_line statement takes
    have formed := placed.formed line (List.mem_of_getElem? at_line)
    have good := (Line.formed_iff line).mp formed
    rw [Line.readings, statement] at good
    obtain ⟨init, v, c, pre, rfl, read, -⟩ := readings_with takes good
    obtain ⟨g, filled, count, same⟩ := exists_gap at_line statement
    exact ⟨g, v, filled, count, (whole_of_value read).feed, name, init, same ▸ statement, takes⟩
  · rintro g v label a rfl holds named
    obtain ⟨whole, defined⟩ := whole_of_labelAt named placed
    exact ⟨placed.reachable _ a defined, stands_at_place assembled holds,
      assemble_fill_label assembled holds named,
      fun b read => assemble_fill assembled holds read rfl,
      assemble_fill_unread assembled holds whole⟩

def numeralGap : Gap where
  above := ["HLT".toList, "10: HLT".toList]
  front := "DB ".toList
  back := []
  below := none
  lines := by simp
  inside := by simp
  uncommented := by simp [isComment]
  padded := by simp [Text.before]

/-- The label `10` stands at the address 1, and where it is put it is the number ten. -/
theorem label_in_gap_numeral :
    assemble (numeralGap.fill "0".toList) = .ok [1, 1, 0] ∧
      LabelAt (numeralGap.fill "0".toList) "10".toList 1 ∧
      assemble (numeralGap.fill "10".toList) = .ok [1, 1, 10] ∧
      assemble (numeralGap.fill "10".toList) ≠ .ok [1, 1, 1] := by
  have assembled : assemble (numeralGap.fill "0".toList) = .ok [1, 1, 0] := by decide +kernel
  have holds : numeralGap.Holds "0".toList :=
    ⟨by simp, "DB".toList, [], by decide +kernel, .inl rfl⟩
  have named : LabelAt (numeralGap.fill "0".toList) "10".toList 1 :=
    ⟨["HLT".toList], "10: HLT".toList, ["DB 0".toList], "10".toList, " HLT".toList,
      by decide +kernel, by decide +kernel, by decide +kernel, by decide +kernel⟩
  obtain ⟨-, -, exactly, byte, -⟩ :=
    (label_in_gap assembled).2 numeralGap _ _ _ rfl holds named
  have place : numeralGap.place "0".toList = 2 := by decide +kernel
  have read : value "10".toList = .ok (.byte 10) := by decide +kernel
  rw [place] at exactly byte
  refine ⟨assembled, named, byte 10 read, fun same => ?_⟩
  rcases exactly.mp same with name | number
  · exact absurd name (by decide)
  · exact absurd number (by decide +kernel)

end Ls8.Assembly
