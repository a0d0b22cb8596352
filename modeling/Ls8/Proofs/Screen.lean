import Ls8.Proofs.Text.Words
import Ls8.Screen.Panels

/-! What can be seen of the registers. The panel shows four of them in a line, each in twenty
cells, and cuts the line off at its width, so that a narrow panel hides the last registers of both
lines. -/
namespace Ls8

open Text (decimal)

def Debugger.withGeneral (d : Debugger) (g : Vector UInt8 8) : Debugger :=
  { d with machine := d.machine.setRegs { d.machine.cpu.regs with general := g } }

namespace Screen

section

variable {p q : Panel} {l l' : Line} {r r' s s' : Row} {w n width height i : Nat} {b b' : UInt8}

theorem length_draw (p : Panel) (width : Nat) (edges : 2 ≤ height) :
    (p.draw width height).length = height := by
  simp only [Panel.draw, List.length_cons, List.length_append, List.length_map, List.length_take,
    List.length_replicate, List.length_nil]
  omega

theorem zipWith_append_inj {left left' right : List Row} (same : left'.length = left.length)
    (enough : left.length ≤ right.length) :
    List.zipWith (· ++ ·) left right = List.zipWith (· ++ ·) left' right ↔ left = left' := by
  induction left generalizing left' right with
  | nil =>
    rw [List.length_nil] at same
    simp [List.eq_nil_of_length_eq_zero same]
  | cons r left ih =>
    cases left' with
    | nil => cases same
    | cons r' left' =>
      cases right with
      | nil => cases enough
      | cons s right =>
        have rest := ih (Nat.succ.inj same) (Nat.le_of_succ_le_succ enough)
        simp only [List.zipWith_cons_cons, List.cons.injEq, List.append_left_inj, rest]

theorem fit_inj (fill : Style) (same : r'.length = r.length) :
    fit w fill r = fit w fill r' ↔ r.take w = r'.take w := by
  rw [fit, fit, same, List.append_left_inj]

theorem take_append_inj (len : r.length = n) (len' : r'.length = n) :
    (r ++ s).take w = (r' ++ s').take w ↔
      r.take w = r'.take w ∧ s.take (w - n) = s'.take (w - n) := by
  rw [List.take_append, List.take_append, len, len']
  constructor
  · intro same
    apply List.append_inj same
    rw [List.length_take, List.length_take, len, len']
  · rintro ⟨front, back⟩
    rw [front, back]

/-- A line of blocks of equal length shows of each block what is left of its width there. -/
theorem take_flatten_inj {rows rows' : List Row} (same : rows'.length = rows.length)
    (len : ∀ r ∈ rows, r.length = n) (len' : ∀ r ∈ rows', r.length = n) :
    rows.flatten.take w = rows'.flatten.take w ↔ ∀ k (h : k < rows.length),
      rows[k].take (w - n * k) = rows'[k].take (w - n * k) := by
  induction rows generalizing rows' w with
  | nil =>
    rw [List.length_nil] at same
    simp [List.eq_nil_of_length_eq_zero same]
  | cons r rows ih =>
    cases rows' with
    | nil => cases same
    | cons r' rows' =>
      have rest := ih (w := w - n) (Nat.succ.inj same) (fun s hs => len s (.tail r hs))
        (fun s hs => len' s (.tail r' hs))
      rw [List.flatten_cons, List.flatten_cons, take_append_inj (len r (.head _))
        (len' r' (.head _)), rest]
      constructor
      · rintro ⟨first, others⟩ k h
        cases k with
        | zero => exact first
        | succ k =>
          rw [Nat.mul_succ, Nat.add_comm, Nat.sub_add_eq]
          exact others k (Nat.lt_of_succ_lt_succ h)
      · intro all
        refine ⟨all 0 (Nat.succ_pos _), fun k h => ?_⟩
        have later := all (k + 1) (Nat.succ_lt_succ h)
        rw [Nat.mul_succ, Nat.add_comm, Nat.sub_add_eq] at later
        exact later

theorem length_padLeft {fill : Char} {t : List Char} (fits : t.length ≤ w) :
    (Text.padLeft fill w t).length = w := by
  rw [Text.padLeft, List.length_append, List.length_replicate]
  omega

theorem length_value (b : UInt8) : (Text.padLeft ' ' 3 (decimal b.toNat)).length = 3 :=
  length_padLeft (Nat.toDigits_length 10 _ 3 (by decide) (Nat.lt_trans b.toNat_lt (by decide)))

theorem length_bits (b : UInt8) : (Text.bits b).length = 8 :=
  length_padLeft (Nat.toDigits_length 2 _ 8 (by decide) b.toNat_lt)

theorem decimal_of_lt (small : i < 8) : ∃ c, decimal i = [c] := by
  have single : ∀ i < 8, (decimal i).length = 1 := by decide
  exact List.length_eq_one_iff.mp (single i small)

theorem length_registerCells (small : i < 8) (b : UInt8) : (registerCells i b).length = 20 := by
  obtain ⟨c, digit⟩ := decimal_of_lt small
  simp [registerCells, styled, digit, length_value, length_bits]

theorem text_styled (style : Style) (t : List Char) : text (styled style t) = t := by
  rw [text, styled, List.map_map]
  exact List.map_id t

theorem take_styled (style : Style) (t : List Char) :
    (styled style t).take n = styled style (t.take n) :=
  List.map_take.symm

theorem registerCells_eq (small : i < 8) : ∃ c, ∀ b, registerCells i b =
    styled (valueStyle b) (['R', c, ':', ' '] ++ (Text.padLeft ' ' 3 (decimal b.toNat) ++
      (" (".toList ++ Text.bits b ++ ")  ".toList))) := by
  obtain ⟨c, digit⟩ := decimal_of_lt small
  refine ⟨c, fun b => ?_⟩
  rw [registerCells, digit]
  simp

theorem valueStyle_inj : valueStyle b = valueStyle b' ↔ (b = 0 ↔ b' = 0) := by
  by_cases zero : b = 0 <;> by_cases zero' : b' = 0 <;> simp [valueStyle, zero, zero', Style.of]

theorem value_injective (h : Text.padLeft ' ' 3 (decimal b.toNat) =
    Text.padLeft ' ' 3 (decimal b'.toNat)) : b = b' := by
  have read (b : UInt8) : Text.trim (Text.padLeft ' ' 3 (decimal b.toNat)) = decimal b.toNat := by
    have word := Text.word_decimal b.toNat
    have blank : ∀ c ∈ List.replicate (3 - (decimal b.toNat).length) ' ',
        Text.isBlank c = true := by
      intro c member
      rw [List.eq_of_mem_replicate member]
      decide
    have padded := Text.trim_padded _ [] blank (by simp) (Text.bare_of_word word.2) word.1
    rwa [List.append_nil] at padded
  have same := congrArg Text.trim h
  rw [read, read] at same
  exact UInt8.toNat_inj.mp (Text.decimal_injective same)

/-- The seven cells with the name and the decimal value tell the value. -/
theorem registerCells_inj (small : i < 8) (wide : 7 ≤ n) :
    (registerCells i b).take n = (registerCells i b').take n ↔ b = b' := by
  refine ⟨fun same => ?_, fun same => by rw [same]⟩
  obtain ⟨c, cells⟩ := registerCells_eq small
  have shown (b : UInt8) : (text (((registerCells i b).take n).take 7)).drop 4 =
      Text.padLeft ' ' 3 (decimal b.toNat) := by
    rw [List.take_take, Nat.min_eq_left wide, cells, take_styled, text_styled, List.drop_take]
    exact List.take_left' (length_value b)
  have told := congrArg (fun r => (text (r.take 7)).drop 4) same
  simp only [shown] at told
  exact value_injective told

/-- The name alone tells whether the value is zero, by its colour. -/
theorem registerCells_name (small : i < 8) (some_cell : 0 < n) (narrow : n ≤ 4) :
    (registerCells i b).take n = (registerCells i b').take n ↔ (b = 0 ↔ b' = 0) := by
  obtain ⟨c, cells⟩ := registerCells_eq small
  have shown (b : UInt8) : (registerCells i b).take n =
      styled (valueStyle b) (['R', c, ':', ' '].take n) := by
    rw [cells, take_styled, List.take_append_of_le_length narrow]
  rw [shown, shown, ← valueStyle_inj]
  refine ⟨fun same => ?_, fun same => by rw [same]⟩
  obtain ⟨n, rfl⟩ := Nat.exists_eq_add_one.mpr some_cell
  simpa [styled] using congrArg List.head? same

theorem draw_inj (d : Debugger) (g g' : Vector UInt8 8) (width : Nat) (room : 16 ≤ height) :
    draw (d.withGeneral g) width height = draw (d.withGeneral g') width height ↔
      (registers (d.withGeneral g)).draw (width * 55 / 100) 7 =
        (registers (d.withGeneral g')).draw (width * 55 / 100) 7 := by
  let left := width * 55 / 100
  let right := width - left
  let cells := max 10 (height - 12)
  let printed := height - 4 - cells
  -- No panel but one reads the eight registers.
  have panels (g : Vector UInt8 8) : draw (d.withGeneral g) width height =
      List.zipWith (· ++ ·)
        ((disassembly d (height - 10)).draw left (height - 10) ++
          (registers (d.withGeneral g)).draw left 7 ++ (status d).draw left 3)
        ((memory d cells).draw right cells ++ (output d printed).draw right printed ++
          help.draw right 4) := rfl
  have code : 2 ≤ height - 10 := by omega
  have memory : 2 ≤ cells := Nat.le_trans (by decide) (Nat.le_max_left 10 _)
  have output : 2 ≤ printed := by omega
  have lefts (g : Vector UInt8 8) : ((disassembly d (height - 10)).draw left (height - 10) ++
      (registers (d.withGeneral g)).draw left 7 ++ (status d).draw left 3).length = height := by
    rw [List.length_append, List.length_append, length_draw _ _ code,
      length_draw _ _ (by decide : 2 ≤ 7), length_draw _ _ (by decide : 2 ≤ 3)]
    omega
  rw [panels, panels, zipWith_append_inj ((lefts g').trans (lefts g).symm),
    List.append_left_inj, List.append_right_inj]
  rw [lefts, List.length_append, List.length_append, length_draw _ _ memory,
    length_draw _ _ output, length_draw _ _ (by decide : 2 ≤ 4)]
  omega

def lineCells (g : Vector UInt8 8) (first : Nat) : List Row :=
  ((g.toList.zipIdx.map fun (b, i) => registerCells i b).drop first).take 4

theorem length_lineCells (g : Vector UInt8 8) {first : Nat} (room : first ≤ 4) :
    (lineCells g first).length = 4 := by
  simp only [lineCells, List.length_take, List.length_drop, List.length_map, List.length_zipIdx,
    Vector.length_toList]
  omega

theorem getElem_lineCells (g : Vector UInt8 8) {first k : Nat} (room : first ≤ 4) (inside : k < 4)
    (h : k < (lineCells g first).length) :
    (lineCells g first)[k] = registerCells (first + k) g[first + k] := by
  simp [lineCells]

theorem length_of_mem_lineCells {g : Vector UInt8 8} {first : Nat} (room : first ≤ 4) :
    ∀ r ∈ lineCells g first, r.length = 20 := by
  intro r member
  obtain ⟨k, h, rfl⟩ := List.getElem_of_mem member
  have inside := h
  rw [length_lineCells g room] at inside
  rw [getElem_lineCells g room inside]
  exact length_registerCells (by omega) _

theorem length_line (g : Vector UInt8 8) {first : Nat} (room : first ≤ 4) :
    (lineCells g first).flatten.length = 80 := by
  rw [List.length_flatten, List.map_congr_left (length_of_mem_lineCells room)]
  simp [length_lineCells g room]

theorem line_inj {g g' : Vector UInt8 8} {first : Nat} (room : first ≤ 4) :
    fit w .plain (lineCells g first).flatten = fit w .plain (lineCells g' first).flatten ↔
      ∀ k (h : k < 4), (registerCells (first + k) g[first + k]).take (w - 20 * k) =
        (registerCells (first + k) g'[first + k]).take (w - 20 * k) := by
  have same : (lineCells g' first).length = (lineCells g first).length := by
    rw [length_lineCells g room, length_lineCells g' room]
  rw [fit_inj .plain (by rw [length_line g room, length_line g' room]),
    take_flatten_inj same (length_of_mem_lineCells room) (length_of_mem_lineCells room)]
  constructor
  · intro all k h
    have here := all k (by rwa [length_lineCells g room])
    rwa [getElem_lineCells g room h, getElem_lineCells g' room h] at here
  · intro all k h
    have inside := h
    rw [length_lineCells g room] at inside
    rw [getElem_lineCells g room inside, getElem_lineCells g' room inside]
    exact all k inside

theorem draw_registers (d : Debugger) (width : Nat) (g : Vector UInt8 8) :
    (registers (d.withGeneral g)).draw width 7 =
      (registers d).top width ::
        (registers d).middle width ⟨(lineCells g 0).flatten, .plain⟩ ::
        (registers d).middle width ⟨(lineCells g 4).flatten, .plain⟩ ::
        (((registers d).lines.drop 2 ++ [(⟨[], .plain⟩ : Line)]).map
          ((registers d).middle width) ++ [(registers d).bottom width]) := by
  have second : lineCells g 4 =
      (g.toList.zipIdx.map fun (b, i) => registerCells i b).drop 4 := by
    apply List.take_of_length_le
    simp
  rw [second]
  rfl

theorem registers_inj (d : Debugger) (g g' : Vector UInt8 8) (width : Nat) :
    (registers (d.withGeneral g)).draw width 7 = (registers (d.withGeneral g')).draw width 7 ↔
      fit (width - 2) .plain (lineCells g 0).flatten =
        fit (width - 2) .plain (lineCells g' 0).flatten ∧
      fit (width - 2) .plain (lineCells g 4).flatten =
        fit (width - 2) .plain (lineCells g' 4).flatten := by
  simp only [draw_registers, Panel.middle, List.cons.injEq, List.append_left_inj,
    List.append_right_inj, true_and, and_true]

theorem draw_eq_iff (d : Debugger) (g g' : Vector UInt8 8) (width : Nat) (room : 16 ≤ height) :
    draw (d.withGeneral g) width height = draw (d.withGeneral g') width height ↔
      ∀ k (h : k < 4),
        ((registerCells k g[k]).take (width * 55 / 100 - 2 - 20 * k) =
          (registerCells k g'[k]).take (width * 55 / 100 - 2 - 20 * k)) ∧
        (registerCells (4 + k) g[4 + k]).take (width * 55 / 100 - 2 - 20 * k) =
          (registerCells (4 + k) g'[4 + k]).take (width * 55 / 100 - 2 - 20 * k) := by
  rw [draw_inj d g g' width room, registers_inj, line_inj (by decide), line_inj (by decide)]
  simp only [Nat.zero_add, forall_and]

theorem forall_lt_four {P : ∀ k, k < 4 → Prop} : (∀ k h, P k h) ↔
    P 0 (by decide) ∧ P 1 (by decide) ∧ P 2 (by decide) ∧ P 3 (by decide) := by
  constructor
  · intro all
    exact ⟨all 0 _, all 1 _, all 2 _, all 3 _⟩
  · rintro ⟨zero, one, two, three⟩ k h
    interval_cases k <;> assumption

end

/-- Screens that differ in nothing but the registers. The narrower two show no register but the
first two of each line, though at eighty columns a third name is left over, with the colour that
tells zero from the rest; the next shows three of each line, and only the widest shows all eight. -/
theorem registers_shown (d : Debugger) (g g' : Vector UInt8 8) :
    let same (width height : Nat) : Prop :=
      draw (d.withGeneral g) width height = draw (d.withGeneral g') width height
    (same 60 20 ↔ g[0] = g'[0] ∧ g[1] = g'[1] ∧ g[4] = g'[4] ∧ g[5] = g'[5]) ∧
    (same 80 24 ↔ g[0] = g'[0] ∧ g[1] = g'[1] ∧ g[4] = g'[4] ∧ g[5] = g'[5] ∧
      (g[2] = 0 ↔ g'[2] = 0) ∧ (g[6] = 0 ↔ g'[6] = 0)) ∧
    (same 100 30 ↔ g[0] = g'[0] ∧ g[1] = g'[1] ∧ g[2] = g'[2] ∧
      g[4] = g'[4] ∧ g[5] = g'[5] ∧ g[6] = g'[6]) ∧
    (same 140 40 ↔ g = g') := by
  refine ⟨?_, ?_, ?_, ?_⟩
  · refine (draw_eq_iff d g g' 60 (by decide : 16 ≤ 20)).trans ?_
    rw [forall_lt_four]
    simp (disch := decide) only [registerCells_inj, List.take_zero, Nat.reduceMul, Nat.reduceDiv,
      Nat.reduceSub, Nat.reduceAdd, and_true]
    tauto
  · refine (draw_eq_iff d g g' 80 (by decide : 16 ≤ 24)).trans ?_
    rw [forall_lt_four]
    simp (disch := decide) only [registerCells_inj, registerCells_name, List.take_zero,
      Nat.reduceMul, Nat.reduceDiv, Nat.reduceSub, Nat.reduceAdd, and_true]
    tauto
  · refine (draw_eq_iff d g g' 100 (by decide : 16 ≤ 30)).trans ?_
    rw [forall_lt_four]
    simp (disch := decide) only [registerCells_inj, List.take_zero, Nat.reduceMul, Nat.reduceDiv,
      Nat.reduceSub, Nat.reduceAdd, and_true]
    tauto
  · refine (draw_eq_iff d g g' 140 (by decide : 16 ≤ 40)).trans ?_
    rw [forall_lt_four]
    simp (disch := decide) only [registerCells_inj, Nat.reduceMul, Nat.reduceDiv, Nat.reduceSub,
      Nat.reduceAdd]
    constructor
    · rintro ⟨⟨r0, r4⟩, ⟨r1, r5⟩, ⟨r2, r6⟩, r3, r7⟩
      ext i inside
      interval_cases i <;> simp [*]
    · rintro rfl
      simp

end Screen
end Ls8
