import Ls8.Debugger
import Ls8.Proofs.Runs

/-! A run of the debugger against steps of the plain machine. It leaves the breakpoint it begins on
once, and then it ends where the machine halts, comes to a breakpoint or fails, whichever is first. -/
namespace Ls8.Debugger

open Machine (Succeeds)
open Text (decimal)

def headStart (d : Debugger) : Nat := if d.pc ∈ d.breakpoints then 1 else 0

/-- After `k` steps a run notices that the machine has halted or is at a breakpoint. -/
def Rests (d : Debugger) (k : Nat) (m : Machine) : Prop :=
  d.headStart ≤ k ∧ (m.cpu.status = .halted ∨ m.cpu.regs.pc ∈ d.breakpoints)

def Stops (d : Debugger) (k : Nat) (m : Machine) : Prop :=
  d.Rests k m ∨ ∃ f, m.step.1 = .error f

/-- The machine `m` that the plain one becomes in `k` steps is the first at which a run stops. -/
structure FirstStop (d : Debugger) (k : Nat) (m : Machine) : Prop where
  reached : Succeeds k d.machine m
  stops : d.Stops k m
  first : ∀ j < k, ∀ m', Succeeds j d.machine m' → ¬ d.Stops j m'

/-- What a run that stops at `m` leaves: `m` itself if it rests there, else `m` after its failing
step. Only a machine that could go on is reported to be at a breakpoint. -/
structure Ended (d : Debugger) (k : Nat) (m : Machine) (d' : Debugger) : Prop where
  idle : d'.running = false
  rested : d.Rests k m → d'.machine = m
  failed : ¬ d.Rests k m → d'.machine = m.step.2
  paused : d'.machine.cpu.status = .running →
    d'.notice.text = "Breakpoint at PC=".toList ++ decimal d'.pc.toNat
  unpaused : "Breakpoint at PC=".toList <+: d'.notice.text → d'.machine.cpu.status = .running

structure Told (m : Machine) (d' : Debugger) : Prop where
  halted : d'.machine.cpu.status = .halted →
    d'.notice.text = "Stopped after ".toList ++ decimal d'.machine.cpu.cycles.toNat ++
      " cycles: Halted".toList
  failed : d'.machine.cpu.status = .error →
    ∃ f, m.step.1 = .error f ∧ d'.notice.text = "Error: ".toList ++ f.message

/-- A run that has not stopped after its first steps and `i` ticks. -/
structure Underway (d : Debugger) (i : Nat) (e : Debugger) : Prop where
  running : e.running = true
  breakpoints : e.breakpoints = d.breakpoints
  reached : Succeeds (d.headStart + i) d.machine e.machine

section

variable {d e : Debugger} {m m' : Machine} {f : Fault} {i j k n : Nat}

theorem onBreakpoint_iff : d.onBreakpoint = true ↔ d.pc ∈ d.breakpoints := List.contains_iff_mem

theorem breakpoint_of_prefix {s : Notice} (h : "Breakpoint at PC=".toList <+: s.text) :
    ∃ pc, s = .atBreakpoint pc := by
  -- No other text begins with a B.
  have first : s.text.head? = some 'B' := by
    obtain ⟨rest, whole⟩ := h
    rw [← whole]
    simp
  cases s with
  | atBreakpoint pc => exact ⟨pc, rfl⟩
  | _ =>
    unfold Notice.text at first
    simp at first

theorem ended_of_stuck {d' : Debugger} (idle : d'.running = false)
    (rested : d.Rests k m → d'.machine = m) (failed : ¬ d.Rests k m → d'.machine = m.step.2)
    (stuck : d'.machine.cpu.status ≠ .running) (other : ∀ pc, d'.notice ≠ .atBreakpoint pc) :
    Ended d k m d' := by
  refine ⟨idle, rested, failed, fun goes => absurd goes stuck, ?_⟩
  intro shown
  obtain ⟨pc, here⟩ := breakpoint_of_prefix shown
  exact absurd here (other pc)

theorem ticksFrom_of_running (made rest : Nat)
    (running : ∀ i < n, (tick^[i] e).running = true) :
    ticksFrom made (n + rest) e = ticksFrom (made + n) rest (tick^[n] e) := by
  induction n generalizing e made with
  | zero => rw [Nat.zero_add]; rfl
  | succ n ih =>
    have first : e.running = true := running 0 (Nat.succ_pos n)
    have later : ∀ i < n, (tick^[i] e.tick).running = true :=
      fun i below => running (i + 1) (Nat.succ_lt_succ below)
    rw [Nat.succ_add, ticksFrom, if_pos first, ih (made + 1) later, Nat.add_assoc, Nat.add_comm 1]
    rfl

theorem ticks_of_running (running : ∀ i < n, (tick^[i] e).running = true) :
    ticks n e = (n, tick^[n] e) := by
  have made := ticksFrom_of_running 0 0 running
  simpa [ticks, ticksFrom] using made

theorem ticks_of_over {most : Nat} (running : ∀ i < n, (tick^[i] e).running = true)
    (idle : (tick^[n] e).running = false) (enough : n ≤ most) :
    ticks most e = (n, tick^[n] e) := by
  obtain ⟨rest, rfl⟩ := Nat.exists_eq_add_of_le enough
  rw [ticks, ticksFrom_of_running 0 rest running, Nat.zero_add]
  cases rest with
  | zero => rfl
  | succ rest => simp [ticksFrom, idle]

theorem machine_tick_of_breakpoint (h : e.pc ∈ e.breakpoints) : e.tick.machine = e.machine := by
  unfold tick
  split
  · rfl
  · split
    · rfl
    · rw [if_pos (onBreakpoint_iff.mpr h)]

theorem firstStop_unique (h : FirstStop d k m) (h' : FirstStop d j m') : k = j ∧ m = m' := by
  rcases Nat.lt_trichotomy k j with before | rfl | after
  · exact absurd h.stops (h'.first k before m h.reached)
  · exact ⟨rfl, h.reached.unique h'.reached⟩
  · exact absurd h'.stops (h.first j after m' h'.reached)

theorem exists_firstStop (reached : Succeeds k d.machine m) (stops : d.Stops k m) :
    ∃ j m', FirstStop d j m' := by
  induction k using Nat.strongRecOn generalizing m with
  | ind k ih =>
    by_cases sooner : ∃ j < k, ∃ m', Succeeds j d.machine m' ∧ d.Stops j m'
    · obtain ⟨j, below, m', reached', stops'⟩ := sooner
      exact ih j below reached' stops'
    · exact ⟨k, m, reached, stops,
        fun j below m' reached' stops' => sooner ⟨j, below, m', reached', stops'⟩⟩

theorem step_of_goes (goes : ¬ d.Stops k m) : ∃ i m', m.step = (.ok i, m') := by
  rcases taken : m.step with ⟨_ | i, m'⟩
  · exact absurd (.inr ⟨_, by rw [taken]⟩) goes
  · exact ⟨i, m', rfl⟩

theorem status_of_underway (runs : d.machine.cpu.isRunning = true) (h : Underway d i e) :
    e.machine.cpu.status ≠ .error :=
  h.reached.status (by simp [d.machine.cpu.isRunning_iff.mp runs])

theorem tick_of_halted (running : e.running = true) (halted : e.machine.cpu.status = .halted) :
    e.tick = { e with running := false, notice := .finished e.machine.cpu.cycles .halted } := by
  have idle : e.machine.cpu.isRunning = false := by simp [Cpu.isRunning, halted]
  simp [tick, running, idle, halted]

theorem tick_of_breakpoint (running : e.running = true) (runs : e.machine.cpu.isRunning = true)
    (here : e.pc ∈ e.breakpoints) :
    e.tick = { e with running := false, notice := .atBreakpoint e.pc } := by
  simp [tick, running, runs, onBreakpoint_iff.mpr here]

theorem tick_of_clear (running : e.running = true) (runs : e.machine.cpu.isRunning = true)
    (clear : e.pc ∉ e.breakpoints) : e.tick = e.step := by
  have off : ¬ e.onBreakpoint = true := mt onBreakpoint_iff.mp clear
  simp [tick, running, runs, off]

theorem step_of_ok {i : Instruction} (taken : e.machine.step = (.ok i, m')) :
    e.step = { e with machine := m', notice := .executed e.pc i } := by
  simp [step, Machine.runs_of_step taken, taken]

theorem step_of_error (runs : e.machine.cpu.isRunning = true)
    (taken : e.machine.step = (.error f, m')) :
    e.step = { e with machine := m', notice := .failed f, running := false } := by
  simp [step, runs, taken]

theorem underway_tick (h : Underway d i e) (goes : ¬ d.Stops (d.headStart + i) e.machine) :
    Underway d (i + 1) e.tick := by
  obtain ⟨instr, m', taken⟩ := step_of_goes goes
  have clear : e.pc ∉ e.breakpoints := by
    intro here
    rw [h.breakpoints] at here
    exact goes (.inl ⟨Nat.le_add_right _ i, .inr here⟩)
  have stepped : e.tick = { e with machine := m', notice := .executed e.pc instr } := by
    rw [tick_of_clear h.running (Machine.runs_of_step taken) clear, step_of_ok taken]
  rw [stepped]
  exact ⟨h.running, h.breakpoints, h.reached.append (.cons taken (.nil m'))⟩

/-- Where a run stops its last tick says why. The halt is looked for first, then the breakpoint. -/
theorem ended_tick (runs : d.machine.cpu.isRunning = true) (h : Underway d i e)
    (stops : d.Stops (d.headStart + i) e.machine) :
    Ended d (d.headStart + i) e.machine e.tick ∧ Told e.machine e.tick := by
  have started : d.headStart ≤ d.headStart + i := Nat.le_add_right _ i
  cases status : e.machine.cpu.status with
  | error => exact absurd status (status_of_underway runs h)
  | halted =>
    have rests : d.Rests (d.headStart + i) e.machine := ⟨started, .inl status⟩
    rw [tick_of_halted h.running status]
    have stuck : e.machine.cpu.status ≠ .running := by simp [status]
    refine ⟨ended_of_stuck rfl (fun _ => rfl) (absurd rests) stuck (by simp), ⟨?_, ?_⟩⟩
    · intro _
      exact List.append_assoc _ " cycles: ".toList Status.halted.name
    · intro failed
      cases status.symm.trans failed
  | running =>
    have able := e.machine.cpu.isRunning_iff.mpr status
    by_cases here : e.pc ∈ e.breakpoints
    · have place : e.machine.cpu.regs.pc ∈ d.breakpoints := h.breakpoints ▸ here
      have rests : d.Rests (d.headStart + i) e.machine := ⟨started, .inr place⟩
      rw [tick_of_breakpoint h.running able here]
      refine ⟨⟨rfl, fun _ => rfl, fun moves => absurd rests moves, fun _ => rfl, fun _ => status⟩,
        ⟨?_, ?_⟩⟩
      · intro halted
        cases status.symm.trans halted
      · intro failed
        cases status.symm.trans failed
    · have place : e.machine.cpu.regs.pc ∉ d.breakpoints := h.breakpoints ▸ here
      have moves : ¬ d.Rests (d.headStart + i) e.machine := by
        rintro ⟨-, halted | there⟩
        · cases status.symm.trans halted
        · exact place there
      obtain ⟨f, failure⟩ := stops.resolve_left moves
      have taken : e.machine.step = (.error f, e.machine.step.2) := Prod.ext failure rfl
      have failed := Machine.error_of_failed able (Machine.step_cases taken)
      rw [tick_of_clear h.running able here, step_of_error able taken]
      have stuck : e.machine.step.2.cpu.status ≠ .running := by simp [failed]
      refine ⟨ended_of_stuck rfl (absurd · moves) (fun _ => rfl) stuck (by simp), ⟨?_, ?_⟩⟩
      · intro halted
        cases failed.symm.trans halted
      · exact fun _ => ⟨f, failure, rfl⟩

/-- A run is under way, or the step that leaves the breakpoint behind was its last. -/
theorem underway_run (runs : d.machine.cpu.isRunning = true) :
    Underway d 0 d.run ∨
      d.run.running = false ∧ ∃ k m, FirstStop d k m ∧ Ended d k m d.run := by
  by_cases here : d.pc ∈ d.breakpoints
  · have started : d.headStart = 1 := if_pos here
    have unheeded : ∀ m, ¬ d.Rests 0 m := by
      rintro m ⟨none_made, -⟩
      omega
    have left : d.run =
        if d.step.machine.cpu.isRunning then { d.step with running := true, notice := .running }
        else { d.step with running := false } := by
      simp [run, onBreakpoint_iff.mpr here]
    rcases taken : d.machine.step with ⟨f | instr, m⟩
    · -- The step fails, and the run ends before its first tick.
      have failed := Machine.error_of_failed runs (Machine.step_cases taken)
      have idle : m.cpu.isRunning = false := by simp [Cpu.isRunning, failed]
      rw [step_of_error runs taken] at left
      simp only [idle, Bool.false_eq_true, if_false] at left
      refine .inr ⟨by rw [left], 0, d.machine,
        ⟨.nil _, .inr ⟨f, by rw [taken]⟩, fun j below => absurd below (Nat.not_lt_zero j)⟩, ?_⟩
      rw [left]
      have stuck : m.cpu.status ≠ .running := by simp [failed]
      exact ended_of_stuck rfl (absurd · (unheeded _)) (fun _ => by rw [taken]) stuck (by simp)
    · have made : Succeeds 1 d.machine m := .cons taken (.nil m)
      rw [step_of_ok taken] at left
      cases able : m.cpu.isRunning with
      | true =>
        simp only [able, if_true] at left
        rw [left]
        exact .inl ⟨rfl, rfl, by rwa [started]⟩
      | false =>
        -- The step halts, and the run ends before its first tick.
        have halted := Machine.halted_of_idle able (Machine.status_of_step taken)
        have rests : d.Rests 1 m := ⟨Nat.le_of_eq started, .inl halted⟩
        simp only [able, Bool.false_eq_true, if_false] at left
        refine .inr ⟨by rw [left], 1, m, ⟨made, .inl rests, ?_⟩, ?_⟩
        · intro j below m' reached stops
          obtain rfl : j = 0 := Nat.lt_one_iff.mp below
          cases reached
          obtain ⟨f, failure⟩ := stops.resolve_left (unheeded _)
          rw [taken] at failure
          cases failure
        · rw [left]
          have stuck : m.cpu.status ≠ .running := by simp [halted]
          exact ended_of_stuck rfl (fun _ => rfl) (absurd rests) stuck (by simp)
  · have started : d.headStart = 0 := if_neg here
    have off : ¬ d.onBreakpoint = true := mt onBreakpoint_iff.mp here
    have left : d.run = { d with running := true, notice := .running } := by
      simp [run, off, runs]
    rw [left]
    refine .inl ⟨rfl, rfl, ?_⟩
    rw [started]
    exact .nil _

theorem underway_ticks (h : Underway d 0 e)
    (goes : ∀ i < n, ∀ m, Succeeds (d.headStart + i) d.machine m → ¬ d.Stops (d.headStart + i) m)
    (within : i ≤ n) : Underway d i (tick^[i] e) := by
  induction i with
  | zero => exact h
  | succ i ih =>
    have sofar := ih (Nat.le_of_succ_le within)
    rw [Function.iterate_succ_apply']
    exact underway_tick sofar (goes i within _ sofar.reached)

theorem headStart_le (h : Underway d 0 e) (stop : FirstStop d k m) : d.headStart ≤ k := by
  by_contra early
  have reached := h.reached
  obtain ⟨none_made, started⟩ : k = 0 ∧ d.headStart = 1 := by
    unfold headStart at early ⊢
    split at early
    · next here => exact ⟨by omega, if_pos here⟩
    · omega
  subst none_made
  rw [started] at reached
  have unrested : ¬ d.Rests 0 m := fun rests => early rests.1
  obtain ⟨f, failure⟩ := stop.stops.resolve_left unrested
  cases stop.reached
  cases reached with
  | cons taken =>
    rw [taken] at failure
    cases failure

theorem ends_at_first_stop (runs : d.machine.cpu.isRunning = true) (stop : FirstStop d k m) :
    ∃ n d', (∀ most, n ≤ most → d.run.ticks most = (n, d')) ∧ Ended d k m d' ∧
      (d.run.running = true → Told m d' ∧ ∃ j, k = d.headStart + j ∧ n = j + 1 ∧
        ∀ i ≤ j, Succeeds (d.headStart + i) d.machine (d.run.ticks i).2.machine) := by
  rcases underway_run runs with h | ⟨idle, k', m', stop', ended⟩
  · obtain ⟨j, rfl⟩ := Nat.exists_eq_add_of_le (headStart_le h stop)
    have goes : ∀ i < j, ∀ m, Succeeds (d.headStart + i) d.machine m →
        ¬ d.Stops (d.headStart + i) m :=
      fun i below m => stop.first _ (Nat.add_lt_add_left below _) m
    have under : ∀ i ≤ j, Underway d i (tick^[i] d.run) := fun i within =>
      underway_ticks h goes within
    have running : ∀ n ≤ j + 1, ∀ i < n, (tick^[i] d.run).running = true :=
      fun n within i below => (under i (by omega)).running
    have here := (under j (Nat.le_refl j)).reached.unique stop.reached
    have last := under j (Nat.le_refl j)
    have ended := ended_tick runs last (here ▸ stop.stops)
    rw [here, ← Function.iterate_succ_apply' tick j d.run] at ended
    refine ⟨j + 1, tick^[j + 1] d.run, ?_, ended.1, fun _ => ⟨ended.2, j, rfl, rfl, ?_⟩⟩
    · exact fun most enough => ticks_of_over (running _ (Nat.le_refl _)) ended.1.idle enough
    · intro i within
      rw [ticks_of_running (running i (by omega))]
      exact (under i within).reached
  · obtain ⟨rfl, rfl⟩ := firstStop_unique stop stop'
    refine ⟨0, d.run, fun most enough => ?_, ended, fun running => ?_⟩
    · exact ticks_of_over (fun i below => absurd below (Nat.not_lt_zero i)) idle enough
    · rw [idle] at running
      cases running

theorem never_ends (runs : d.machine.cpu.isRunning = true) (endless : ¬ ∃ k m, FirstStop d k m)
    (most : Nat) : (d.run.ticks most).1 = most ∧ (d.run.ticks most).2.running = true ∧
      Succeeds (d.headStart + most) d.machine (d.run.ticks most).2.machine := by
  have goes : ∀ i < most, ∀ m, Succeeds (d.headStart + i) d.machine m →
      ¬ d.Stops (d.headStart + i) m :=
    fun i _ m reached stops => endless (exists_firstStop reached stops)
  rcases underway_run runs with h | ⟨-, k, m, stop, -⟩
  · have under : ∀ i ≤ most, Underway d i (tick^[i] d.run) := fun i within =>
      underway_ticks h goes within
    rw [ticks_of_running fun i below => (under i (Nat.le_of_lt below)).running]
    have last := under most (Nat.le_refl most)
    exact ⟨rfl, last.running, last.reached⟩
  · exact absurd ⟨k, m, stop⟩ endless

end

/-- No tick executes the instruction at a breakpoint. A run ends with the first machine at which it
stops, one tick after the last one that succeeds, and if there is none it never ends. -/
theorem run_ends (d : Debugger) (runs : d.machine.cpu.status = .running) :
    (∀ e : Debugger, e.pc ∈ e.breakpoints → e.tick.machine = e.machine) ∧
    (∀ k m, FirstStop d k m → ∃ n d', (∀ most, n ≤ most → d.run.ticks most = (n, d')) ∧
      Ended d k m d' ∧
      (d.run.running = true → Told m d' ∧ ∃ j, k = d.headStart + j ∧ n = j + 1 ∧
        ∀ i ≤ j, Succeeds (d.headStart + i) d.machine (d.run.ticks i).2.machine)) ∧
    ((¬ ∃ k m, FirstStop d k m) → ∀ most, (d.run.ticks most).1 = most ∧
      (d.run.ticks most).2.running = true ∧
      Succeeds (d.headStart + most) d.machine (d.run.ticks most).2.machine) := by
  rw [← Cpu.isRunning_iff] at runs
  exact ⟨fun e => machine_tick_of_breakpoint, fun k m => ends_at_first_stop runs, never_ends runs⟩

theorem run_ends_at_next_breakpoint :
    let d : Debugger := { start [0x82, 0, 8, 0x47, 0, 1] with breakpoints := [0, 3] }
    let m := d.machine.step.2
    d.machine.cpu.status = .running ∧ FirstStop d 1 m ∧ d.run.running = true ∧
      ∃ d', (∀ most, 1 ≤ most → d.run.ticks most = (1, d')) ∧ d'.machine = m ∧
        d'.notice.text = "Breakpoint at PC=3".toList := by
  intro d m
  have runs : d.machine.cpu.status = .running := by decide +kernel
  have started : d.headStart = 1 := by decide +kernel
  have answer : d.machine.step.1 = .ok (.load 0 8) := by decide +kernel
  have taken : d.machine.step = (.ok (.load 0 8), m) := by rw [← answer]
  have place : m.cpu.regs.pc = 3 := by decide +kernel
  have status : m.cpu.status = .running := by decide +kernel
  have left : d.run.running = true := by decide +kernel
  have heeded : 3 ∈ d.breakpoints := by decide +kernel
  -- Nothing else matters of the two machines, which are large.
  clear_value m d
  have rests : d.Rests 1 m := ⟨Nat.le_of_eq started, .inr (place ▸ heeded)⟩
  have stop : FirstStop d 1 m := by
    refine ⟨.cons taken (.nil m), .inl rests, ?_⟩
    intro j below m' reached stops
    obtain rfl : j = 0 := Nat.lt_one_iff.mp below
    cases reached
    rcases stops with ⟨none_made, -⟩ | ⟨f, failure⟩
    · rw [started] at none_made
      exact absurd none_made (by decide)
    · rw [taken] at failure
      cases failure
  obtain ⟨n, d', loop, ended, told⟩ := (run_ends d runs).2.1 1 m stop
  obtain ⟨-, j, whole, count, -⟩ := told left
  rw [started] at whole
  obtain rfl : n = 1 := by omega
  have machine := ended.rested rests
  refine ⟨runs, stop, left, d', loop, machine, ?_⟩
  have counter : d'.pc = 3 := by rw [pc, machine, place]
  rw [ended.paused (by rw [machine, status]), counter]
  decide

end Ls8.Debugger
