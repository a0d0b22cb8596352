import Ls8.Debugger
import Ls8.Proofs.Step

/-! The machine of a debugger and the plain machine. Whatever the user does, the debugger's machine
is where the plain one is after some of its steps, and so is what it has printed. -/
namespace Ls8.Debugger

inductive Command where
  | step | run | tick | toggle | reset
  | scroll (row : Nat)
  deriving DecidableEq

def obey (d : Debugger) : Command → Debugger
  | .step => d.step
  | .run => d.run
  | .tick => d.tick
  | .toggle => d.toggle
  | .reset => d.reset
  | .scroll row => d.scrollTo row

/-- How many commands came after the last reset, if `n` came before these. -/
def sinceReset (n : Nat) : List Command → Nat
  | [] => n
  | .reset :: rest => sinceReset 0 rest
  | _ :: rest => sinceReset (n + 1) rest

def Sound (d : Debugger) : Prop := d.running = true → d.machine.cpu.status ≠ .error

/-- What every command but a reset does. Whether it steps depends on the debugger; what the step
does depends on the machine alone. -/
structure Obeyed (d d' : Debugger) : Prop where
  program : d'.program = d.program
  machine : d'.machine = d.machine ∨ d'.machine = d.machine.step.2
  sound : d.Sound → d'.Sound

section

variable {d : Debugger} {cpu : Cpu} {n : Nat}

theorem sound_of_idle (idle : d.running = false) : d.Sound := by
  intro running
  rw [idle] at running
  cases running

theorem sound_of_runs (runs : d.machine.cpu.isRunning = true) : d.Sound := by
  intro _ failed
  rw [d.machine.cpu.isRunning_iff.mp runs] at failed
  cases failed

theorem obeyed_self (d : Debugger) : Obeyed d d := ⟨rfl, .inl rfl, id⟩

theorem obeyed_step (d : Debugger) : Obeyed d d.step := by
  unfold step
  split
  · split
    · next taken =>
      exact ⟨rfl, .inr (by rw [taken]), fun _ _ => Machine.status_of_step taken⟩
    · next taken => exact ⟨rfl, .inr (by rw [taken]), fun _ => sound_of_idle rfl⟩
  · exact ⟨rfl, .inl rfl, fun _ => sound_of_idle rfl⟩

theorem obeyed_run (d : Debugger) : Obeyed d d.run := by
  -- All that a run does to the machine is the step that leaves a breakpoint behind.
  have left : Obeyed d (if d.onBreakpoint then d.step else d) := by
    split
    · exact obeyed_step d
    · exact obeyed_self d
  unfold run
  dsimp only
  generalize (if d.onBreakpoint then d.step else d) = d' at left ⊢
  split
  · next runs => exact ⟨left.program, left.machine, fun _ => sound_of_runs runs⟩
  · exact ⟨left.program, left.machine, fun _ => sound_of_idle rfl⟩

theorem obeyed_tick (d : Debugger) : Obeyed d d.tick := by
  unfold tick
  split
  · exact obeyed_self d
  · split
    · exact ⟨rfl, .inl rfl, fun _ => sound_of_idle rfl⟩
    · split
      · exact ⟨rfl, .inl rfl, fun _ => sound_of_idle rfl⟩
      · exact obeyed_step d

theorem obeyed_toggle (d : Debugger) : Obeyed d d.toggle := by
  unfold toggle
  split <;> exact ⟨rfl, .inl rfl, id⟩

theorem obeyed (d : Debugger) {c : Command} (other : c ≠ .reset) : Obeyed d (d.obey c) := by
  cases c with
  | step => exact obeyed_step d
  | run => exact obeyed_run d
  | tick => exact obeyed_tick d
  | toggle => exact obeyed_toggle d
  | reset => exact absurd rfl other
  | scroll row => exact ⟨rfl, .inl rfl, id⟩

theorem load_eq (h : Cpu.ofProgram d.program = .ok cpu) :
    d.load = { d with machine := ⟨cpu, .endless⟩ } := by
  simp [load, h]

theorem reset_eq (h : Cpu.ofProgram d.program = .ok cpu) :
    d.reset = { start d.program with
      breakpoints := d.breakpoints, scroll := d.scroll, notice := .wasReset } := by
  have new : (⟨⟨.new, .endless⟩, d.program, [], false, .ready, 0⟩ : Debugger).load =
      ⟨⟨cpu, .endless⟩, d.program, [], false, .ready, 0⟩ := load_eq h
  rw [reset, start, load_eq h, new]

/-- The debugger's machine is where the plain one is after at most so many steps. -/
structure Follows (program : List UInt8) (cpu : Cpu) (n : Nat) (d : Debugger) : Prop where
  program : d.program = program
  machine : ∃ k ≤ n, d.machine = (fun m : Machine => m.step.2)^[k] ⟨cpu, .endless⟩
  sound : d.Sound

variable {program : List UInt8}

/-- The machine that a program begins with. One that is too large is not in it. -/
def fresh (program : List UInt8) : Machine :=
  ⟨(Cpu.ofProgram program).toOption.getD .new, .endless⟩

theorem cpu_fresh (loads : Cpu.ofProgram program = .ok cpu) : (fresh program).cpu = cpu := by
  simp [fresh, loads, Except.toOption]

theorem load_fresh (d : Debugger) :
    d.load.machine = fresh d.program ∧ d.load.program = d.program ∧
      d.load.running = d.running := by
  unfold load fresh
  split <;> next outcome => simp [outcome, Except.toOption]

theorem follows_fresh (same : d.program = program) (begun : d.machine = fresh program)
    (idle : d.running = false) : Follows program (fresh program).cpu 0 d :=
  ⟨same, ⟨0, Nat.le_refl 0, begun⟩, sound_of_idle idle⟩

theorem follows_new (program : List UInt8) :
    Follows program (fresh program).cpu 0 (start program) := by
  obtain ⟨machine, same, running⟩ := load_fresh ⟨⟨.new, .endless⟩, program, [], false, .ready, 0⟩
  exact follows_fresh same machine running

theorem follows_again (h : Follows program (fresh program).cpu n d) :
    Follows program (fresh program).cpu 0 d.reset := by
  obtain ⟨machine, same, -⟩ := load_fresh d
  rw [h.program] at machine same
  exact follows_fresh same machine rfl

theorem follows_start (h : Cpu.ofProgram program = .ok cpu) :
    Follows program cpu 0 (start program) := by
  rw [← cpu_fresh h]
  exact follows_new program

theorem follows_obey (h : Follows program cpu n d) {c : Command} (other : c ≠ .reset) :
    Follows program cpu (n + 1) (d.obey c) := by
  have done := obeyed d other
  obtain ⟨k, within, place⟩ := h.machine
  refine ⟨done.program.trans h.program, ?_, done.sound h.sound⟩
  rcases done.machine with stays | steps
  · exact ⟨k, Nat.le_succ_of_le within, stays.trans place⟩
  · refine ⟨k + 1, Nat.succ_le_succ within, ?_⟩
    rw [steps, place, Function.iterate_succ_apply']

theorem sinceReset_other {c : Command} (other : c ≠ .reset) (cs : List Command) :
    sinceReset n (c :: cs) = sinceReset (n + 1) cs := by
  cases c with
  | reset => exact absurd rfl other
  | _ => rfl

theorem follows_history (cs : List Command) (h : Follows program (fresh program).cpu n d) :
    Follows program (fresh program).cpu (sinceReset n cs) (cs.foldl obey d) := by
  induction cs generalizing n d with
  | nil => exact h
  | cons c cs ih =>
    by_cases again : c = .reset
    · rw [again]
      exact ih (follows_again h)
    · rw [sinceReset_other again]
      exact ih (follows_obey h again)

theorem follows_commands (loads : Cpu.ofProgram program = .ok cpu) (cs : List Command)
    (h : Follows program cpu n d) : Follows program cpu (sinceReset n cs) (cs.foldl obey d) := by
  rw [← cpu_fresh loads] at h ⊢
  exact follows_history cs h

end

/-- A debugger never disturbs the program: its machine is the plain one after at most as many steps
as there were commands since the last reset, and every other command leaves it or takes its step. -/
theorem commands_follow (program : List UInt8) (fits : program.length ≤ Memory.space)
    (cs : List Command) :
    let d := cs.foldl obey (start program)
    ∃ cpu, Cpu.ofProgram program = .ok cpu ∧
      (∃ k ≤ sinceReset 0 cs, d.machine = (fun m : Machine => m.step.2)^[k] ⟨cpu, .endless⟩) ∧
      (∀ d' : Debugger, d'.machine = d.machine → ∀ c ≠ .reset,
        (d'.obey c).machine = d.machine ∨ (d'.obey c).machine = d.machine.step.2) ∧
      (d.running = true → d.machine.cpu.status = .running ∨ d.machine.cpu.status = .halted) ∧
      d.reset = { start program with
        breakpoints := d.breakpoints, scroll := d.scroll, notice := .wasReset } := by
  intro d
  obtain ⟨mem, loads⟩ := Cpu.ofProgram_of_fits fits
  have follows := follows_commands loads cs (follows_start loads)
  refine ⟨_, loads, follows.machine, ?_, ?_, ?_⟩
  · intro d' same c other
    rw [← same]
    exact (obeyed d' other).machine
  · intro running
    cases status : d.machine.cpu.status with
    | running => exact .inl rfl
    | halted => exact .inr rfl
    | error => exact absurd status (follows.sound running)
  · have here := loads
    rw [← follows.program] at here
    rw [reset_eq here, follows.program]

theorem commands_follow_print :
    let cs : List Command := [.step, .reset, .toggle, .run, .tick, .scroll 3]
    let d := cs.foldl obey (start [0x82, 0, 8, 0x47, 0])
    sinceReset 0 cs = 4 ∧ d.machine.out.printed = "8\n" ∧
      ∃ cpu, Cpu.ofProgram [0x82, 0, 8, 0x47, 0] = .ok cpu ∧
        ∃ k ≤ 4, d.machine = (fun m : Machine => m.step.2)^[k] ⟨cpu, .endless⟩ := by
  intro cs d
  obtain ⟨cpu, loads, place, -⟩ := commands_follow [0x82, 0, 8, 0x47, 0] (by decide) cs
  exact ⟨rfl, by decide +kernel, cpu, loads, place⟩

end Ls8.Debugger
