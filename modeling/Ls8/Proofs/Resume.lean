import Ls8.Proofs.Recurrence
import Ls8.Proofs.Snapshot

/-! A run that is saved on its way and taken up again from the snapshot. It ends as the run that is
not interrupted does, on the same channel or on another one. -/
namespace Ls8.Machine

structure Twin (m n : Machine) : Prop where
  cpu : n.cpu = m.cpu
  endless : m.out.room = none
  endless' : n.out.room = none

section

variable {m n m' n' last : Machine} {e : Ending} {r : Except Fault UInt64} {j k : Nat}

theorem Twin.alike (h : Twin m n) : Alike m n :=
  ⟨by rw [h.cpu], by rw [h.cpu], by rw [h.cpu], h.endless, h.endless'⟩

theorem step_twin (h : Twin m n) :
    n.step.1 = m.step.1 ∧ Twin m.step.2 n.step.2 ∧ PrintAlike m n m.step.2 n.step.2 := by
  obtain ⟨answer, alike, printed⟩ := step_alike h.alike
  rcases taken : m.step with ⟨a, m'⟩
  rcases taken' : n.step with ⟨a', n'⟩
  rw [taken, taken'] at answer alike printed
  cases answer
  -- The count and the last instruction move where the step succeeds and stay where it fails.
  have told : n'.cpu.cycles = m'.cpu.cycles ∧ n'.cpu.last = m'.cpu.last := by
    cases a with
    | ok i =>
      rw [cycles_step taken, cycles_step taken', h.cpu]
      exact ⟨rfl, (last_of_step taken').trans (last_of_step taken).symm⟩
    | error f =>
      have kept := kept_of_failed (step_cases taken)
      have kept' := kept_of_failed (step_cases taken')
      rw [kept.cycles, kept.last, kept'.cycles, kept'.last, h.cpu]
      exact ⟨rfl, rfl⟩
  have cpu : n'.cpu = m'.cpu :=
    calc n'.cpu
      _ = ⟨n'.cpu.regs, n'.cpu.mem, n'.cpu.status, n'.cpu.cycles, n'.cpu.last⟩ := rfl
      _ = ⟨m'.cpu.regs, m'.cpu.mem, m'.cpu.status, m'.cpu.cycles, m'.cpu.last⟩ := by
        rw [alike.regs, alike.mem, alike.status, told.1, told.2]
  exact ⟨rfl, ⟨cpu, alike.endless, alike.endless'⟩, printed⟩

theorem steps_twin (h : Twin m n) (k : Nat) :
    (steps k n).1 = (steps k m).1 ∧ (steps k n).2.cpu = (steps k m).2.cpu ∧
      PrintAlike m n (steps k m).2 (steps k n).2 := by
  induction k generalizing m n with
  | zero =>
    simp only [steps, h.cpu]
    exact ⟨trivial, trivial, .silent rfl rfl⟩
  | succ k ih =>
    simp only [steps, h.cpu]
    cases m.cpu.isRunning with
    | false => exact ⟨rfl, h.cpu, .silent rfl rfl⟩
    | true =>
      obtain ⟨answer, twin, printed⟩ := step_twin h
      rcases taken : m.step with ⟨a, m'⟩
      rcases taken' : n.step with ⟨a', n'⟩
      rw [taken, taken'] at answer twin printed
      cases answer
      cases a with
      | error f => exact ⟨rfl, twin.cpu, printed⟩
      | ok i =>
        obtain ⟨same, cpu, later⟩ := ih twin
        exact ⟨same, cpu, printed.trans later⟩

theorem run_twin (h : Twin m n) (ran : m.run = some (r, last)) : ∃ last',
    n.run = some (r, last') ∧ last'.cpu = last.cpu ∧ PrintAlike m n last last' := by
  obtain ⟨e, ends, ended, rfl⟩ := run_eq_some.mp ran
  obtain ⟨same, cpu, printed⟩ := steps_twin h (UInt64.size - 1)
  rcases ended' : steps (UInt64.size - 1) n with ⟨e', last'⟩
  rw [ended, ended'] at same cpu printed
  cases same
  refine ⟨last', run_eq_some.mpr ⟨e, ends, ended', ?_⟩, cpu, printed⟩
  rw [cpu, h.cpu]

end

/-- A processor is restored from what it was saved as, and no two are saved as the same. A run that is
saved after some of its steps and taken up from the snapshot comes to where it would have come: on the
same channel it leaves the same machine, and on a channel of its own it prints what was left to print. -/
theorem snapshots_resume :
    (∀ (c : Cpu) s, c.SavedAs s → Cpu.restore? s = some c) ∧
    (∀ (c c' : Cpu) s, c.SavedAs s → c'.SavedAs s → c = c') ∧
    ∀ m j e m' s, steps j m = (e, m') → m'.cpu.SavedAs s → ∃ c, Cpu.restore? s = some c ∧
      (∀ k, (steps k ⟨c, m'.out⟩).2 = (steps (j + k) m).2) ∧
      ((∀ f, e ≠ .failed f) →
        (∀ k, steps k ⟨c, m'.out⟩ = steps (j + k) m) ∧
        (∀ r last, m.run = some (r, last) →
          run ⟨c, m'.out⟩ = some (r.map (· - (c.cycles - m.cpu.cycles)), last)) ∧
        ∀ out, m'.out.room = none → out.room = none →
          (∀ k, (steps k ⟨c, out⟩).1 = (steps (j + k) m).1 ∧
            (steps k ⟨c, out⟩).2.cpu = (steps (j + k) m).2.cpu ∧
            PrintAlike m' ⟨c, out⟩ (steps (j + k) m).2 (steps k ⟨c, out⟩).2) ∧
          ∀ r last, m.run = some (r, last) → ∃ last',
            run ⟨c, out⟩ = some (r.map (· - (c.cycles - m.cpu.cycles)), last') ∧
              last'.cpu = last.cpu ∧ PrintAlike m' ⟨c, out⟩ last last') := by
  have back : ∀ (c : Cpu) s, c.SavedAs s → Cpu.restore? s = some c := fun c s => Cpu.restore?_saved
  refine ⟨back, ?_, ?_⟩
  · intro c c' s saved saved'
    exact Option.some.inj ((back c s saved).symm.trans (back c' s saved'))
  · intro m j e m' s begun saved
    refine ⟨m'.cpu, back _ s saved, left_steps begun, ?_⟩
    intro unfailed
    refine ⟨steps_steps begun unfailed, fun r last => run_rest begun unfailed, ?_⟩
    intro out endless endless'
    have twin : Twin m' ⟨m'.cpu, out⟩ := ⟨rfl, endless, endless'⟩
    constructor
    · intro k
      rw [← steps_steps begun unfailed]
      exact steps_twin twin k
    · intro r last ran
      exact run_twin twin (run_rest begun unfailed ran)

/-- `LDI R0,8`, twice `PRN R0`, and `HLT`, in a memory of eight cells. -/
def printTwice : Machine :=
  ⟨{ Cpu.new with mem := ⟨#[0x82, 0, 8, 0x47, 0, 0x47, 0, 0x01]⟩ }, .endless⟩

theorem snapshots_resume_printTwice :
    ∃ m' c last, steps 2 printTwice = (.cutOff, m') ∧ m'.out.printed = "8\n" ∧
      Cpu.restore? m'.cpu.snapshotIndented = some c ∧ run ⟨c, .endless⟩ = some (.ok 2, last) ∧
      last.cpu.status = .halted ∧ last.out.printed = "8\n" := by
  let a := printTwice.step.2
  let m' := a.step.2
  let b := m'.step.2
  let last := b.step.2
  have first : printTwice.step = (.ok (.load 0 8), a) := by decide +kernel
  have second : a.step = (.ok (.print 0), m') := by decide +kernel
  have third : m'.step = (.ok (.print 0), b) := by decide +kernel
  have fourth : b.step = (.ok .halt, last) := by decide +kernel
  have made : Succeeds 4 printTwice last :=
    .cons first (.cons second (.cons third (.cons fourth (.nil last))))
  have ran : printTwice.run = some (.ok 4, last) :=
    run_of_stepping (.stopped (by decide) made (by decide +kernel)) (by simp)
  have begun : steps 2 printTwice = (.cutOff, m') := by decide +kernel
  have half : m'.out.printed = "8\n" := by decide +kernel
  have whole : last.out.printed = m'.out.printed ++ "8\n" := by decide +kernel
  obtain ⟨back, -, resumes⟩ := snapshots_resume
  obtain ⟨c, restored, -, rest⟩ := resumes printTwice 2 .cutOff m' _ begun (.inr rfl)
  obtain rfl : m'.cpu = c := Option.some.inj ((back m'.cpu _ (.inr rfl)).symm.trans restored)
  obtain ⟨-, -, elsewhere⟩ := rest (by simp)
  obtain ⟨last', ended, cpu, text, printed, printed'⟩ :=
    (elsewhere .endless (by decide +kernel) rfl).2 _ last ran
  have line : text = "8\n" := (String.append_right_inj _).mp (printed.symm.trans whole)
  have counted : (4 : UInt64) - (m'.cpu.cycles - printTwice.cpu.cycles) = 2 := by decide +kernel
  rw [Except.map, counted] at ended
  refine ⟨m', m'.cpu, last', begun, half, restored, ended, ?_, ?_⟩
  · rw [cpu]
    decide +kernel
  · rw [printed', line]
    rfl

end Ls8.Machine
