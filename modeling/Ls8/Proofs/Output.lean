import Ls8.Proofs.Debugger.Follow
import Ls8.Proofs.Files.Encoded
import Ls8.Proofs.Printed

/-! The output of a machine read back. It is a line of digits for each value that was printed, so
that it can be cut into lines again, and the values are the ones that the debugger shows. -/
namespace Ls8

open Text (decimal lines natural?)

namespace Machine

/-- The value that a step prints, whether or not the counter can move on after it. -/
def emits (m : Machine) : Option UInt8 := if m.cpu.isRunning then m.cpu.prints else none

def emitted (ms : List Machine) : List UInt8 := ms.filterMap emits

def callTries (m : Machine) : List Call → List Machine
  | [] => []
  | c :: calls => c.tries m ++ (m.call c).elim [] fun m' => callTries m' calls

def output (m : Machine) : List UInt8 := Files.bytesOf m.out.printed.toList

def readBack (bytes : List UInt8) : Option (List Nat) :=
  (Files.text? bytes).bind fun s => (lines s).mapM (natural? 10)

section

variable {m m' m'' : Machine} {ms ms' : List Machine} {values : List UInt8}

theorem Trying.append (first : Trying m ms m') (rest : Trying m' ms' m'') :
    Trying m (ms ++ ms') m'' := by
  induction first with
  | nil => exact rest
  | cons _ ih => exact .cons (ih rest)

theorem trying_calls (calls : List Call) (made : calls.foldlM call m = some m') :
    Trying m (m.callTries calls) m' := by
  induction calls generalizing m with
  | nil =>
    cases made
    exact .nil _
  | cons c calls ih =>
    obtain ⟨next, first, rest⟩ := Option.bind_eq_some_iff.mp made
    have front := trying_call first
    simp only [callTries, first, Option.elim_some]
    exact front.append (ih rest)

theorem printed_emits (endless : m.out.room = none) :
    m.step.2.out.printed.toList = m.out.printed.toList ++ (emitted [m]).flatMap line := by
  cases runs : m.cpu.isRunning with
  | false =>
    have same : m.step.2 = m := by simp [step, runs]
    simp [same, emitted, emits, runs]
  | true =>
    rw [printed_step endless runs]
    cases value : m.cpu.prints <;> simp [emitted, emits, runs, value]

/-- What is printed is added to what was printed before, a line for each value. -/
theorem printed_trying (endless : m.out.room = none) (tried : Trying m ms m') :
    m'.out.printed.toList = m.out.printed.toList ++ (emitted ms).flatMap line := by
  induction tried with
  | nil => simp [emitted]
  | @cons m m' ms _ ih =>
    have first := printed_emits endless
    have whole : emitted (m :: ms) = emitted [m] ++ emitted ms := by
      simp only [emitted, ← List.filterMap_append, List.singleton_append]
    rw [ih (endless_step endless), first, whole, List.flatMap_append, List.append_assoc]

theorem line_digits (v : UInt8) : ∃ digits, line v = digits ++ ['\n'] ∧
    (∀ c ∈ digits, c.isDigit = true) ∧ natural? 10 digits = some v.toNat ∧
      (digits.head? = some '0' → digits = ['0']) := by
  refine ⟨decimal v.toNat, rfl, fun c => Text.isDigit_of_mem_decimal,
    Text.natural?_decimal v.toNat, ?_⟩
  intro zero
  rcases Nat.eq_zero_or_pos v.toNat with none | positive
  · rw [none]
    rfl
  · exact absurd zero (Text.decimal_head positive)

theorem ascii_of_mem_lines {c : Char} (member : c ∈ values.flatMap line) : c.toNat < 128 := by
  obtain ⟨v, -, inside⟩ := List.mem_flatMap.mp member
  rcases List.mem_append.mp inside with digit | ends
  · have range := Char.isDigit_iff_toNat.mp (Text.isDigit_of_mem_decimal digit)
    have nine : '9'.toNat = 57 := rfl
    omega
  · rw [List.mem_singleton.mp ends]
    decide

theorem lines_values (values : List UInt8) :
    lines (values.flatMap line) = values.map fun v => decimal v.toNat := by
  induction values with
  | nil => rfl
  | cons v values ih =>
    have digits : ∀ c, c.isDigit = false → c ∉ decimal v.toNat := by
      intro c other member
      rw [Text.isDigit_of_mem_decimal member] at other
      cases other
    have first : (v :: values).flatMap line = decimal v.toNat ++ '\n' :: values.flatMap line := by
      simp [line]
    rw [first, Text.lines_append_feed _ (digits '\n' rfl) (digits '\r' rfl), ih, List.map_cons]

theorem mapM_natural (values : List UInt8) :
    (values.map fun v => decimal v.toNat).mapM (natural? 10) = some (values.map UInt8.toNat) := by
  induction values with
  | nil => rfl
  | cons v values ih => simp [ih, Text.natural?_decimal]

theorem readBack_lines (values : List UInt8) :
    readBack (Files.bytesOf (values.flatMap line)) = some (values.map UInt8.toNat) := by
  rw [readBack, Files.text?_bytesOf, Option.bind_some, lines_values, mapM_natural]

theorem printed_iterate (endless : m.out.room = none) (n : Nat) :
    ((fun m : Machine => m.step.2)^[n] m).out.printed.toList =
      m.out.printed.toList ++ (emitted (tries n m)).flatMap line := by
  rw [← steps_eq_iterate]
  exact printed_trying endless (trying_steps n m)

/-- The output of a machine is a line for each of the values, in bytes too, and gives them back. -/
structure Records (m : Machine) (values : List UInt8) : Prop where
  printed : m.out.printed.toList = values.flatMap line
  bytes : m.output = (values.flatMap line).map fun c => c.toNat.toUInt8
  back : readBack m.output = some (values.map UInt8.toNat)

theorem records_of_printed (h : m.out.printed.toList = values.flatMap line) :
    Records m values := by
  refine ⟨h, ?_, ?_⟩
  · rw [output, h, Files.bytesOf_ascii fun c => ascii_of_mem_lines]
  · rw [output, h, readBack_lines]

theorem Records.values_inj {values' : List UInt8} (h : Records m values)
    (h' : Records m' values') (same : m.output = m'.output) : values = values' := by
  have back := h.back
  rw [same, h'.back] at back
  exact (List.map_injective_iff.mpr (fun _ _ => UInt8.toNat_inj.mp) (Option.some.inj back)).symm

end

end Machine

open Machine Debugger in
/-- Every instruction that prints a value adds its decimal and a line end to the output, and nothing
else does. The values are read back from the output of any steps and calls, so that other values
give another output, and the debugger shows those printed since it was last loaded or reset. -/
theorem output_read_back :
    (∀ v : UInt8, ∃ digits, line v = digits ++ ['\n'] ∧ (∀ c ∈ digits, c.isDigit = true) ∧
      natural? 10 digits = some v.toNat ∧ (digits.head? = some '0' → digits = ['0'])) ∧
    (∀ (cpu : Cpu) (n : Nat),
      Records ((fun m : Machine => m.step.2)^[n] ⟨cpu, .endless⟩)
        (emitted (tries n ⟨cpu, .endless⟩))) ∧
    (∀ (cpu : Cpu) (calls : List Call) (m : Machine),
      calls.foldlM call ⟨cpu, .endless⟩ = some m →
        Records m (emitted (callTries ⟨cpu, .endless⟩ calls))) ∧
    (∀ (m m' : Machine) (values values' : List UInt8), Records m values → Records m' values' →
      values ≠ values' → m.output ≠ m'.output) ∧
    ∀ (program : List UInt8) (cs : List Command),
      let d := cs.foldl obey (start program)
      ∃ k ≤ sinceReset 0 cs, d.machine = (fun m : Machine => m.step.2)^[k] (fresh program) ∧
        d.outputLines = (emitted (tries k (fresh program))).map fun v => decimal v.toNat := by
  refine ⟨line_digits, fun cpu n => ?_, fun cpu calls m made => ?_, ?_, fun program cs => ?_⟩
  · exact records_of_printed (printed_iterate rfl n)
  · exact records_of_printed (printed_trying rfl (trying_calls calls made))
  · intro m m' values values' records records' other same
    exact other (records.values_inj records' same)
  · intro d
    obtain ⟨k, within, place⟩ := (follows_history cs (follows_new program)).machine
    have printed : d.machine.out.printed.toList =
        (emitted (tries k (fresh program))).flatMap line := by
      rw [place]
      exact printed_iterate rfl k
    refine ⟨k, within, place, ?_⟩
    rw [outputLines, printed, lines_values]

def printAtTheEnd : Machine :=
  let cells : List UInt8 := List.replicate 254 0 ++ [0x47, 3]
  let regs : Registers := { Registers.zero with general := Vector.replicate 8 9, pc := 254 }
  ⟨{ Cpu.new with mem := ⟨cells.toArray⟩, regs := regs }, .endless⟩

example : printAtTheEnd.step.1 = .error (.register (.pastEnd 256)) ∧
    printAtTheEnd.emits = some 9 ∧ printAtTheEnd.step.2.output = [0x39, 0x0A] := by
  decide +kernel

end Ls8
