import Ls8.Proofs.Assembly.Recognised
import Ls8.Proofs.Text.Case

/-! Sources that differ in their layout, their comments and the case of ASCII letters. Each line of
such a source reads as the same line but for the spelling of its operands; their bytes are the same,
and the errors in them are told apart by no more than their wording. -/
namespace Ls8.Assembly

open Text (Denotes capitals denotes_capitals signed_capitals toUpper_invariant toUpper_iff)

theorem number_capitals {s : List Char} {i : Int} : Number (capitals s) i ↔ Number s i := by
  have zero := toUpper_iff (P := (· = '0')) (by decide)
  have minus := toUpper_iff (P := (· = '-')) (by decide)
  have ex := toUpper_iff (P := fun c => c = 'x' ∨ c = 'X') (by decide)
  have be := toUpper_iff (P := fun c => c = 'b' ∨ c = 'B') (by decide)
  constructor
  · intro h
    generalize e : capitals s = t at h
    cases h with
    | hexadecimal mark h =>
      obtain ⟨u, rfl, rest⟩ := Text.capitals_eq_cons zero e
      obtain ⟨x, v, rfl, rfl, rfl⟩ := List.map_eq_cons_iff.mp rest.symm
      exact .hexadecimal ((ex x).mp mark) ((signed_capitals (by decide)).mp h)
    | binary mark h =>
      obtain ⟨u, rfl, rest⟩ := Text.capitals_eq_cons zero e
      obtain ⟨x, v, rfl, rfl, rfl⟩ := List.map_eq_cons_iff.mp rest.symm
      exact .binary ((be x).mp mark) ((signed_capitals (by decide)).mp h)
    | decimal h =>
      rw [← e, denotes_capitals (by decide)] at h
      exact .decimal h
    | negative h =>
      obtain ⟨u, rfl, rfl⟩ := Text.capitals_eq_cons minus e
      exact .negative ((denotes_capitals (by decide)).mp h)
  · rintro (⟨mark, h⟩ | ⟨mark, h⟩ | h | h)
    · exact .hexadecimal ((ex _).mpr mark) ((signed_capitals (by decide)).mpr h)
    · exact .binary ((be _).mpr mark) ((signed_capitals (by decide)).mpr h)
    · exact .decimal ((denotes_capitals (by decide)).mpr h)
    · exact .negative ((denotes_capitals (by decide)).mpr h)

theorem name_capitals {s : List Char} : Name (capitals s) ↔ Name s := by
  have start := toUpper_invariant (P := isNameStart) (by decide)
  have inner : isNameChar ∘ Char.toUpper = isNameChar :=
    funext (toUpper_invariant (P := isNameChar) (by decide))
  have same : isName (capitals s) = isName s := by
    unfold isName
    rw [capitals, List.all_map, inner]
    cases s <;> simp [start]
  rw [← isName_iff, ← isName_iff, same]

theorem registerName_capitals {s : List Char} {r : Nat} :
    RegisterName (capitals s) r ↔ RegisterName s r := by
  have plus := toUpper_iff (P := (· = '+')) (by decide)
  have are := toUpper_iff (P := fun c => c = 'R' ∨ c = 'r') (by decide)
  constructor
  · rintro ⟨c, t, mark, form, h⟩
    rcases form with e | e
    · obtain ⟨x, u, rfl, rfl, rfl⟩ := List.map_eq_cons_iff.mp e
      exact ⟨x, u, (are x).mp mark, .inl rfl, (denotes_capitals (by decide)).mp h⟩
    · obtain ⟨x, v, rfl, rfl, rest⟩ := List.map_eq_cons_iff.mp e
      obtain ⟨u, rfl, rfl⟩ := Text.capitals_eq_cons plus rest
      exact ⟨x, u, (are x).mp mark, .inr rfl, (denotes_capitals (by decide)).mp h⟩
  · rintro ⟨c, t, mark, form, h⟩
    have number : Denotes 10 (capitals t) r := (denotes_capitals (by decide)).mpr h
    rcases form with rfl | rfl
    · exact ⟨c.toUpper, capitals t, (are c).mpr mark, .inl rfl, number⟩
    · exact ⟨c.toUpper, capitals t, (are c).mpr mark, .inr rfl, number⟩

def kinds (r : Except Cause Cell) : Except Kind Cell := r.mapError Cause.kind

/-- Whether an operand is a number, which one, and whether it is a name does not depend on the case
of its letters, and these three decide what is read. -/
theorem value_capitals (s : List Char) : kinds (value (capitals s)) = kinds (value s) := by
  cases read : value s with
  | ok c =>
    cases c with
    | byte b =>
      rw [value_eq_byte.mpr (number_capitals.mpr (value_eq_byte.mp read))]
    | label name =>
      obtain ⟨named, same⟩ := value_eq_label.mp read
      rw [← Text.upper_capitals s] at same
      rw [value_eq_label.mpr ⟨name_capitals.mpr named, same⟩]
  | error cause =>
    rcases value_error_cases read with ⟨i, rfl⟩ | kind
    · obtain ⟨number, range⟩ := value_eq_outOfRange.mp read
      rw [value_eq_outOfRange.mpr ⟨number_capitals.mpr number, range⟩]
    · have bad := value_eq_syntaxError.mp ⟨cause, read, kind⟩
      simp only [← number_capitals (s := s), ← name_capitals (s := s)] at bad
      obtain ⟨cause', read', kind'⟩ := value_eq_syntaxError.mpr bad
      rw [read', kinds, kinds, Except.mapError, Except.mapError, kind, kind']

theorem register_capitals (s : List Char) : kinds (register (capitals s)) = kinds (register s) := by
  have same : register? (capitals s) = register? s := by
    apply Option.ext
    intro r
    rw [register?_eq_some, register?_eq_some, registerName_capitals]
  unfold register
  rw [same]
  cases register? s <;> rfl

theorem readings_capitals (name : List Char) (given : List (List Char)) :
    (readings name (given.map capitals)).map kinds = (readings name given).map kinds := by
  have operands (op : Opcode) (i : Nat) (s : List Char) :
      kinds (operand op i (capitals s)) = kinds (operand op i s) := by
    unfold operand
    split
    · exact value_capitals s
    · exact register_capitals s
  unfold readings
  split
  · rcases given with _ | ⟨v, _ | ⟨w, more⟩⟩
    · rfl
    · simp [value_capitals]
    · rfl
  · split
    · rfl
    · next op _ =>
      rw [List.length_map]
      split
      · rw [List.map_cons, List.map_cons]
        congr 1
        exact List.ext_getElem (by simp) fun i _ _ => by simp [operands]
      · rfl

def Line.capitals (line : Line) : Line :=
  ⟨line.label, line.statement.map fun s => (s.1, s.2.map Text.capitals)⟩

theorem code_capitals (s : List Char) : code (capitals s) = capitals (code s) := by
  have mark := toUpper_invariant (P := fun c => c == ';' || c == '#') (by decide)
  rw [code, code, ← Text.trim_capitals]
  exact congrArg Text.trim (Text.before_map mark s)

theorem split_capitals (s : List Char) :
    split (capitals s) = ((split s).1, (split s).2.map capitals) := by
  have mark := toUpper_invariant (P := (· == ',')) (by decide)
  have operands (s : List Char) : (Text.pieces (· == ',') (capitals s)).map Text.trim =
      ((Text.pieces (· == ',') s).map Text.trim).map capitals := by
    rw [capitals, Text.pieces_map mark, List.map_map, List.map_map]
    exact List.map_congr_left fun piece _ => Text.trim_capitals piece
  have cut : Text.cut Text.isBlank (capitals s) =
      (Text.cut Text.isBlank s).map fun p => (capitals p.1, capitals p.2) :=
    Text.cut_map Text.isBlank_toUpper s
  unfold split
  rw [cut]
  cases Text.cut Text.isBlank s with
  | none => simp [Text.upper_capitals]
  | some p =>
    simp only [Option.map_some, Text.upper_capitals, Text.trim_capitals, operands]
    cases Text.trim p.2 <;> rfl

theorem statement?_capitals (s : List Char) :
    statement? (capitals s) = (statement? s).map fun s => (s.1, s.2.map capitals) := by
  cases s with
  | nil => rfl
  | cons c s => exact congrArg some (split_capitals (c :: s))

theorem Line.read_capitals (s : List Char) : read (Text.capitals s) = (read s).capitals := by
  have mark := toUpper_invariant (P := (· == ':')) (by decide)
  have cut : Text.cut (· == ':') (code (Text.capitals s)) =
      (Text.cut (· == ':') (code s)).map fun p => (Text.capitals p.1, Text.capitals p.2) := by
    rw [code_capitals]
    exact Text.cut_map mark (code s)
  unfold read
  rw [cut, code_capitals]
  cases Text.cut (· == ':') (code s) with
  | none => simp [statement?_capitals, Line.capitals]
  | some p =>
    simp [statement?_capitals, Line.capitals, Text.trim_capitals, Text.upper_capitals]

/-- A line as far as it counts: its label, and its cells with the kinds of their errors. -/
def Line.gist (line : Line) : Option (List Char) × List (Except Kind Cell) :=
  (line.label, line.readings.map kinds)

theorem Line.gist_capitals (line : Line) : line.capitals.gist = line.gist := by
  obtain ⟨label, _ | ⟨name, given⟩⟩ := line
  · rfl
  · exact congrArg (Prod.mk label) (readings_capitals name given)

def plain (s : List Char) : List Char := capitals (code s)

theorem gist_of_plain {s t : List Char} (h : plain s = plain t) :
    (Line.read s).gist = (Line.read t).gist := by
  rw [plain, plain, ← code_capitals, ← code_capitals] at h
  have same : Line.read (capitals s) = Line.read (capitals t) := by
    rw [Line.read, h, Line.read]
  rw [Line.read_capitals, Line.read_capitals] at same
  rw [← Line.gist_capitals, same, Line.gist_capitals]

theorem mapError_eq_mapError {α ε κ : Type} {f : ε → κ} {x y : Except ε α} :
    x.mapError f = y.mapError f ↔
      (∃ a, x = .ok a ∧ y = .ok a) ∨ ∃ e e', x = .error e ∧ y = .error e' ∧ f e = f e' := by
  cases x <;> cases y <;> simp [Except.mapError, eq_comm]

section

variable {d : Draft} {n : Nat}

theorem addBytes_kind {rs rs' : Readings} (same : rs.map kinds = rs'.map kinds) :
    (Draft.addBytes n d rs).mapError Cause.kind = (Draft.addBytes n d rs').mapError Cause.kind := by
  induction rs generalizing rs' d with
  | nil => rw [List.map_eq_nil_iff.mp same.symm]
  | cons r rs ih =>
    obtain ⟨r', rs', rfl, first, rest⟩ := List.map_eq_cons_iff.mp same.symm
    rcases mapError_eq_mapError.mp first with ⟨c, rfl, rfl⟩ | ⟨cause, cause', rfl, rfl, kind⟩
    · simp only [Draft.addBytes]
      cases (d.note n c).1.emit (d.note n c).2 with
      | ok d => exact ih rest.symm
      | error cause => rfl
    · exact congrArg Except.error kind.symm

theorem addLine_kind {x y : Line} (same : x.gist = y.gist) :
    (d.addLine n x).mapError Cause.kind = (d.addLine n y).mapError Cause.kind := by
  obtain ⟨label, bytes⟩ := Prod.mk.inj same
  unfold Draft.addLine
  rw [label]
  cases y.label with
  | none => exact addBytes_kind bytes
  | some label =>
    dsimp only
    cases d.define label with
    | ok d => exact addBytes_kind bytes
    | error cause => rfl

def Error.sort (e : Error) : Nat × Kind := (e.line, e.cause.kind)

theorem addLines_sort {xs ys : List Line} (same : xs.map Line.gist = ys.map Line.gist) :
    (d.addLines n xs).mapError Error.sort = (d.addLines n ys).mapError Error.sort := by
  induction xs generalizing ys d n with
  | nil => rw [List.map_eq_nil_iff.mp same.symm]
  | cons x xs ih =>
    obtain ⟨y, ys, rfl, first, rest⟩ := List.map_eq_cons_iff.mp same.symm
    unfold Draft.addLines
    rcases mapError_eq_mapError.mp (addLine_kind (d := d) (n := n) first.symm) with
      ⟨next, left, right⟩ | ⟨cause, cause', left, right, kind⟩
    · rw [left, right]
      exact ih rest.symm
    · rw [left, right]
      exact congrArg (fun kind => Except.error (n, kind)) kind

end

/-- Lines that count the same give the same bytes, or an error of one kind on one line. -/
theorem assemble_sort {a b : List Char}
    (same : (Text.lines a).map plain = (Text.lines b).map plain) :
    (assemble a).mapError Error.sort = (assemble b).mapError Error.sort := by
  have lines : (sourceLines a).map Line.gist = (sourceLines b).map Line.gist := by
    rw [← List.forall₂_eq_eq_eq] at same ⊢
    simp only [sourceLines, List.forall₂_map_left_iff, List.forall₂_map_right_iff] at same ⊢
    exact same.imp fun _ _ => gist_of_plain
  have first : (draft a).mapError Error.sort = (draft b).mapError Error.sort := addLines_sort lines
  unfold assemble
  rcases mapError_eq_mapError.mp first with ⟨d, left, right⟩ | ⟨e, e', left, right, sort⟩
  · rw [left, right]
  · rw [left, right]
    exact congrArg Except.error sort

end Ls8.Assembly
