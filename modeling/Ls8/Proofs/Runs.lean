import Ls8.CommandLine
import Ls8.Proofs.Step

/-! Runs against single steps. A run with a limit, in one part or in two, a run without one and the
command line all do what stepping does until it ends. -/
namespace Ls8.Machine

inductive Succeeds : Nat → Machine → Machine → Prop where
  | nil (m : Machine) : Succeeds 0 m m
  | cons {n : Nat} {m m' m'' : Machine} {i : Instruction} (first : m.step = (.ok i, m'))
      (rest : Succeeds n m' m'') : Succeeds (n + 1) m m''

/-- Stepping ends where a step fails, where the processor no longer runs, or after `most` steps,
whichever comes first. Before that `k` steps succeed. -/
inductive Stepping (most : Nat) (m : Machine) : Nat → Ending → Machine → Prop where
  | cutOff {m' : Machine} (made : Succeeds most m m') (runs : m'.cpu.isRunning = true) :
      Stepping most m most .cutOff m'
  | stopped {k : Nat} {m' : Machine} (within : k ≤ most) (made : Succeeds k m m')
      (idle : m'.cpu.isRunning = false) : Stepping most m k .stopped m'
  | failed {k : Nat} {last m' : Machine} {f : Fault} (within : k < most)
      (made : Succeeds k m last) (runs : last.cpu.isRunning = true)
      (failure : last.step = (.error f, m')) : Stepping most m k (.failed f) m'

section

variable {m m' m'' : Machine} {i : Instruction} {e : Ending} {j k n : Nat}

theorem Succeeds.append (first : Succeeds j m m') (rest : Succeeds k m' m'') :
    Succeeds (j + k) m m'' := by
  induction first with
  | nil => rwa [Nat.zero_add]
  | cons step _ ih =>
    rw [Nat.succ_add]
    exact .cons step (ih rest)

theorem Succeeds.cycles (h : Succeeds k m m') :
    m'.cpu.cycles = m.cpu.cycles + UInt64.ofNat k := by
  induction h with
  | nil => simp
  | cons first _ ih =>
    have one : UInt64.ofNat 1 = 1 := rfl
    rw [ih, cycles_step first, UInt64.ofNat_add, one, UInt64.add_assoc, UInt64.add_comm 1]

theorem Stepping.cycles (h : Stepping n m k e m') :
    m'.cpu.cycles = m.cpu.cycles + UInt64.ofNat k := by
  cases h with
  | cutOff made => exact made.cycles
  | stopped _ made => exact made.cycles
  | failed _ made _ failure => rw [(kept_of_failed (step_cases failure)).cycles, made.cycles]

theorem Stepping.cutOff_count (h : Stepping n m k .cutOff m') : k = n := by
  cases h
  rfl

theorem Stepping.le (h : Stepping n m k e m') : k ≤ n := by
  cases h with
  | cutOff => exact Nat.le_refl _
  | stopped within => exact within
  | failed within => exact Nat.le_of_lt within

theorem Stepping.after (first : Succeeds j m m') (rest : Stepping n m' k e m'') :
    Stepping (j + n) m (j + k) e m'' := by
  cases rest with
  | cutOff made runs => exact .cutOff (first.append made) runs
  | stopped within made idle =>
    exact .stopped (Nat.add_le_add_left within j) (first.append made) idle
  | failed within made runs failure =>
    exact .failed (Nat.add_lt_add_left within j) (first.append made) runs failure

theorem Succeeds.of_idle (idle : m.cpu.isRunning = false) (h : Succeeds k m m') :
    k = 0 ∧ m' = m := by
  cases h with
  | nil => exact ⟨rfl, rfl⟩
  | cons first => rw [runs_of_step first] at idle; cases idle

theorem Succeeds.unique (h : Succeeds k m m') (h' : Succeeds k m m'') : m' = m'' := by
  induction h with
  | nil =>
    cases h'
    rfl
  | cons first _ ih =>
    cases h' with
    | cons first' rest' =>
      cases first.symm.trans first'
      exact ih rest'

theorem Succeeds.split (h : Succeeds (j + k) m m'') :
    ∃ m', Succeeds j m m' ∧ Succeeds k m' m'' := by
  induction j generalizing m with
  | zero =>
    rw [Nat.zero_add] at h
    exact ⟨m, .nil m, h⟩
  | succ j ih =>
    rw [Nat.succ_add] at h
    cases h with
    | cons first rest =>
      obtain ⟨m', front, back⟩ := ih rest
      exact ⟨m', .cons first front, back⟩

theorem Succeeds.runs (h : Succeeds (k + 1) m m') : m.cpu.isRunning = true := by
  cases h with
  | cons first => exact runs_of_step first

theorem Stepping.append {e' : Ending} {k' : Nat} (one : Stepping j m k e m')
    (two : Stepping n m' k' e' m'') (unfailed : ∀ f, e ≠ .failed f) :
    Stepping (j + n) m (k + k') e' m'' := by
  cases one with
  | cutOff made => exact two.after made
  | failed => exact absurd rfl (unfailed _)
  | stopped within made idle =>
    cases two with
    | cutOff none runs =>
      obtain ⟨-, rfl⟩ := none.of_idle idle
      rw [idle] at runs
      cases runs
    | failed _ none runs =>
      obtain ⟨-, rfl⟩ := none.of_idle idle
      rw [idle] at runs
      cases runs
    | stopped _ none _ =>
      obtain ⟨rfl, rfl⟩ := none.of_idle idle
      exact .stopped (Nat.le_add_right_of_le within) made idle

theorem Stepping.extend (h : Stepping n m k e m') (ends : e ≠ .cutOff) (room : k < j) :
    Stepping j m k e m' := by
  cases h with
  | cutOff => exact absurd rfl ends
  | stopped _ made idle => exact .stopped (Nat.le_of_lt room) made idle
  | failed _ made runs failure => exact .failed room made runs failure

theorem Stepping.mono (h : Stepping n m k e m') (ends : e ≠ .cutOff) (more : n ≤ j) :
    Stepping j m k e m' := by
  cases h with
  | cutOff => exact absurd rfl ends
  | stopped within made idle => exact .stopped (Nat.le_trans within more) made idle
  | failed within made runs failure =>
    exact .failed (Nat.lt_of_lt_of_le within more) made runs failure

theorem steps_idle (n : Nat) (idle : m.cpu.isRunning = false) : steps n m = (.stopped, m) := by
  cases n <;> simp [steps, idle]

theorem steps_of_succeeds (h : Succeeds k m m') : steps (k + n) m = steps n m' := by
  induction h with
  | nil => rw [Nat.zero_add]
  | cons first _ ih => simpa only [Nat.succ_add, steps, runs_of_step first, if_true, first] using ih

theorem Stepping.steps_eq (h : Stepping n m k e m') : steps n m = (e, m') := by
  cases h with
  | cutOff made runs =>
    have whole := steps_of_succeeds (n := 0) made
    simpa [steps, runs] using whole
  | stopped within made idle =>
    obtain ⟨more, rfl⟩ := Nat.exists_eq_add_of_le within
    rw [steps_of_succeeds made, steps_idle more idle]
  | failed within made runs failure =>
    obtain ⟨more, rfl⟩ := Nat.exists_eq_add_of_lt within
    rw [Nat.add_assoc, steps_of_succeeds made]
    simp [steps, runs, failure]

theorem stepping (n : Nat) (m : Machine) :
    ∃ k, Stepping n m k (steps n m).1 (steps n m).2 := by
  induction n generalizing m with
  | zero =>
    cases runs : m.cpu.isRunning with
    | true => exact ⟨0, by simpa [steps, runs] using .cutOff (.nil m) runs⟩
    | false => exact ⟨0, by simpa [steps, runs] using .stopped (Nat.le_refl 0) (.nil m) runs⟩
  | succ n ih =>
    cases runs : m.cpu.isRunning with
    | false => exact ⟨0, by simpa [steps, runs] using .stopped (Nat.zero_le _) (.nil m) runs⟩
    | true =>
      rcases taken : m.step with ⟨answer, m'⟩
      cases answer with
      | error f =>
        refine ⟨0, ?_⟩
        simpa [steps, runs, taken] using .failed (Nat.succ_pos n) (.nil m) runs taken
      | ok i =>
        obtain ⟨k, rest⟩ := ih m'
        have whole := Stepping.after (.cons taken (.nil m')) rest
        refine ⟨1 + k, ?_⟩
        simpa [steps, runs, taken, Nat.add_comm] using whole

theorem Ending.failed_or_unfailed (e : Ending) : (∃ f, e = .failed f) ∨ ∀ f, e ≠ .failed f := by
  cases e <;> simp

theorem steps_steps (begun : steps j m = (e, m')) (unfailed : ∀ f, e ≠ .failed f) (k : Nat) :
    steps k m' = steps (j + k) m := by
  obtain ⟨a, one⟩ := stepping j m
  obtain ⟨b, two⟩ := stepping k m'
  rw [begun] at one
  exact (one.append two unfailed).steps_eq.symm

theorem left_steps (begun : steps j m = (e, m')) (k : Nat) :
    (steps k m').2 = (steps (j + k) m).2 := by
  rcases e.failed_or_unfailed with ⟨f, rfl⟩ | unfailed
  · obtain ⟨a, one⟩ := stepping j m
    rw [begun] at one
    have stuck : m'.cpu.isRunning = false := by
      cases one with
      | failed _ _ runs failure => exact stuck_of_failed runs (step_cases failure)
    have whole := one.mono (by simp) (Nat.le_add_right j k)
    rw [steps_idle k stuck, whole.steps_eq]
  · rw [steps_steps begun unfailed]

def Ending.verdict : Ending → Except Fault Unit
  | failed f => .error f
  | _ => .ok ()

def Ending.answer (k : Nat) : Ending → Except Fault UInt64
  | failed f => .error f
  | _ => .ok (UInt64.ofNat k)

/-- The loop that asks for the count makes as many steps as the count is below the limit. -/
theorem runBelow_eq (limit : UInt64) (m : Machine) :
    m.runBelow limit =
      ((steps (remaining limit m) m).1.verdict, (steps (remaining limit m) m).2) := by
  induction m using runBelow.induct limit with
  | case1 m more i m' taken ih =>
    rw [remaining_step more.2 taken, runBelow_step more taken, ih]
    simp only [steps, more.1, if_true, taken]
  | case2 m more f m' taken =>
    have below : m.cpu.cycles.toNat < limit.toNat := UInt64.lt_iff_toNat_lt.mp more.2
    obtain ⟨left, count⟩ : ∃ left, remaining limit m = left + 1 :=
      Nat.exists_eq_add_one.mpr (Nat.sub_pos_of_lt below)
    rw [count, runBelow_failed more taken]
    simp only [steps, more.1, if_true, taken, Ending.verdict]
  | case3 m stop =>
    rw [runBelow_stopped stop]
    cases runs : m.cpu.isRunning with
    | false => rw [steps_idle _ runs]; rfl
    | true =>
      have reached : ¬ m.cpu.cycles < limit := fun below => stop ⟨runs, below⟩
      have used : remaining limit m = 0 :=
        Nat.sub_eq_zero_of_le (UInt64.le_iff_toNat_le.mp (UInt64.not_lt.mp reached))
      rw [used]
      simp only [steps, runs, if_true, Ending.verdict]

theorem toNat_saturate (a b : UInt64) :
    (saturate a b).toNat = min (a.toNat + b.toNat) (UInt64.size - 1) := by
  unfold saturate
  split
  · next room =>
    rw [toNat_add_of_room room]
    omega
  · next full =>
    have top : largest.toNat = UInt64.size - 1 := rfl
    omega

theorem remaining_saturate (m : Machine) (most : UInt64) :
    remaining (saturate m.cpu.cycles most) m =
      min most.toNat (UInt64.size - 1 - m.cpu.cycles.toNat) := by
  unfold remaining
  rw [toNat_saturate]
  omega

theorem runLimited_of_remaining {most : UInt64}
    (h : Stepping (remaining (saturate m.cpu.cycles most) m) m k e m') :
    m.runLimited most = (e.answer k, m') := by
  have counted : m'.cpu.cycles - m.cpu.cycles = UInt64.ofNat k := by
    rw [h.cycles, UInt64.add_comm, UInt64.add_sub_cancel]
  rw [runLimited, runBelow_eq, h.steps_eq]
  cases e <;> simp [Ending.verdict, Ending.answer, counted]

theorem runLimited_of_stepping {most : UInt64}
    (room : m.cpu.cycles.toNat + most.toNat < UInt64.size)
    (h : Stepping most.toNat m k e m') : m.runLimited most = (e.answer k, m') := by
  have left : remaining (saturate m.cpu.cycles most) m = most.toNat := by
    rw [remaining_saturate]
    omega
  rw [← left] at h
  exact runLimited_of_remaining h

theorem runLimited_stepping {most : UInt64}
    (room : m.cpu.cycles.toNat + most.toNat < UInt64.size) :
    ∃ k e m', Stepping most.toNat m k e m' ∧ m.runLimited most = (e.answer k, m') := by
  obtain ⟨k, h⟩ := stepping most.toNat m
  exact ⟨k, _, _, h, runLimited_of_stepping room h⟩

theorem Stepping.count (h : Stepping n m k e m') (room : m.cpu.cycles.toNat + n < UInt64.size) :
    m'.cpu.cycles.toNat = m.cpu.cycles.toNat + k := by
  have within := h.le
  have small : (UInt64.ofNat k).toNat = k := UInt64.toNat_ofNat_of_lt' (by omega)
  rw [h.cycles, toNat_add_of_room (by omega), small]

/-- Two limited runs, the second of them if the first does not fail, and the sum of their counts. -/
def runInTurn (m : Machine) (first second : UInt64) : Except Fault UInt64 × Machine :=
  match m.runLimited first with
  | (.error f, m') => (.error f, m')
  | (.ok a, m') =>
    match m'.runLimited second with
    | (.error f, m'') => (.error f, m'')
    | (.ok b, m'') => (.ok (a + b), m'')

theorem Ending.answer_unfailed (unfailed : ∀ f, e ≠ .failed f) :
    e.answer k = .ok (UInt64.ofNat k) := by
  cases e with
  | failed f => exact absurd rfl (unfailed f)
  | _ => rfl

theorem answer_add (j k : Nat) (e : Ending) :
    e.answer (j + k) = (e.answer k).map (UInt64.ofNat j + ·) := by
  cases e <;> simp [Ending.answer, Except.map, UInt64.ofNat_add]

theorem runLimited_add {first second : UInt64}
    (room : m.cpu.cycles.toNat + first.toNat + second.toNat < UInt64.size) :
    m.runLimited (first + second) = m.runInTurn first second := by
  have total : (first + second).toNat = first.toNat + second.toNat :=
    toNat_add_of_room (by omega)
  have whole : m.cpu.cycles.toNat + (first + second).toNat < UInt64.size := by omega
  have part : m.cpu.cycles.toNat + first.toNat < UInt64.size := by omega
  obtain ⟨k, e, m', one, answer⟩ := runLimited_stepping part
  have within := one.le
  have rest : m'.cpu.cycles.toNat + second.toNat < UInt64.size := by
    rw [one.count part]
    omega
  obtain ⟨k', e', m'', two, answer'⟩ := runLimited_stepping rest
  unfold runInTurn
  rw [answer]
  -- A machine that halts in the first part answers the second with no steps, so that only a
  -- failure has to be told apart.
  rcases e.failed_or_unfailed with ⟨f, rfl⟩ | unfailed
  · rw [runLimited_of_stepping whole (one.mono (by simp) (by omega))]
    rfl
  · have both := one.append two unfailed
    rw [← total] at both
    rw [runLimited_of_stepping whole both, answer_add, Ending.answer_unfailed unfailed]
    simp only [answer']
    cases e' <;> rfl

theorem run_eq_some {r : Except Fault UInt64} : m.run = some (r, m') ↔ ∃ e, e ≠ .cutOff ∧
    steps (UInt64.size - 1) m = (e, m') ∧
      r = e.verdict.map fun _ => m'.cpu.cycles - m.cpu.cycles := by
  constructor
  · intro h
    unfold run at h
    split at h
    next => cases h
    next f _ ended =>
      cases h
      exact ⟨.failed f, by simp, ended, rfl⟩
    next ended =>
      cases h
      exact ⟨.stopped, by simp, ended, rfl⟩
  · rintro ⟨e, ends, ended, rfl⟩
    rw [run, ended]
    cases e with
    | cutOff => exact absurd rfl ends
    | _ => rfl

/-- A run that ends does so from each of its machines, and counts the steps that were left. -/
theorem run_rest {r : Except Fault UInt64} {last : Machine} (begun : steps j m = (e, m'))
    (unfailed : ∀ f, e ≠ .failed f) (ran : m.run = some (r, last)) :
    m'.run = some (r.map (· - (m'.cpu.cycles - m.cpu.cycles)), last) := by
  obtain ⟨e', ends, ended, rfl⟩ := run_eq_some.mp ran
  obtain ⟨a, whole⟩ := stepping (UInt64.size - 1) m
  rw [ended] at whole
  have rest : steps (UInt64.size - 1) m' = (e', last) := by
    rw [steps_steps begun unfailed]
    exact (whole.mono ends (Nat.le_add_left _ j)).steps_eq
  refine run_eq_some.mpr ⟨e', ends, rest, ?_⟩
  cases e' with
  | failed f => rfl
  | _ =>
    apply congrArg Except.ok
    grind

theorem run_of_stepping (h : Stepping (UInt64.size - 1) m k e m') (ends : e ≠ .cutOff) :
    m.run = some (e.answer k, m') := by
  have counted : m'.cpu.cycles - m.cpu.cycles = UInt64.ofNat k := by
    rw [h.cycles, UInt64.add_comm, UInt64.add_sub_cancel]
  rw [run, h.steps_eq]
  cases e with
  | cutOff => exact absurd rfl ends
  | stopped => simp only [Ending.answer, counted]
  | failed f => rfl

theorem run_iff_runLimited {r : Except Fault UInt64}
    (count : m'.cpu.cycles.toNat = m.cpu.cycles.toNat + k)
    (room : m.cpu.cycles.toNat + k + 1 < UInt64.size) :
    m.run = some (r, m') ↔ ∀ most : UInt64, k < most.toNat →
      m.cpu.cycles.toNat + most.toNat < UInt64.size → m.runLimited most = (r, m') := by
  constructor
  · intro ran most above bound
    obtain ⟨e, ends, result, -⟩ := run_eq_some.mp ran
    obtain ⟨k', h⟩ := stepping (UInt64.size - 1) m
    rw [result] at h
    rw [run_of_stepping h ends] at ran
    cases ran
    -- Fewer than 2^64 steps were made, so that the two counts tell how many.
    have same : k' = k := by
      have within := h.le
      have cycles := congrArg UInt64.toNat h.cycles
      rw [count, UInt64.toNat_add, UInt64.toNat_ofNat_of_lt' (by omega)] at cycles
      have size : UInt64.size = 2 ^ 64 := rfl
      omega
    rw [← same] at above
    exact runLimited_of_stepping bound (h.extend ends above)
  · intro all
    -- One step more than `k` is enough of a limit to see the machine end.
    have next : (UInt64.ofNat (k + 1)).toNat = k + 1 := UInt64.toNat_ofNat_of_lt' (by omega)
    have bound : m.cpu.cycles.toNat + (UInt64.ofNat (k + 1)).toNat < UInt64.size := by omega
    obtain ⟨k', e, last, h, answer⟩ := runLimited_stepping bound
    rw [all _ (by omega) bound] at answer
    cases answer
    have same : k' = k := by
      have counted := h.count bound
      omega
    subst same
    have ends : e ≠ .cutOff := by
      rintro rfl
      have used := h.cutOff_count
      omega
    exact run_of_stepping (h.extend ends (by omega)) ends

theorem mem_steps (n : Nat) (m : Machine) : (steps n m).2.cpu.mem = m.cpu.mem := by
  induction n generalizing m with
  | zero => rfl
  | succ n ih =>
    unfold steps
    split
    · split
      · next taken => exact (ih _).trans (mem_of_step taken)
      · next taken => exact mem_of_step taken
    · rfl

theorem steps_eq_iterate (n : Nat) (m : Machine) :
    (steps n m).2 = (fun m : Machine => m.step.2)^[n] m := by
  induction n generalizing m with
  | zero => rfl
  | succ n ih =>
    rw [Function.iterate_succ_apply, ← ih]
    cases runs : m.cpu.isRunning with
    | false =>
      have same : m.step.2 = m := by simp [step, runs]
      rw [same, steps_idle _ runs, steps_idle _ runs]
    | true =>
      rcases taken : m.step with ⟨answer, m'⟩
      cases answer with
      | ok i => simp only [steps, runs, if_true, taken]
      | error f =>
        have stuck := stuck_of_failed runs (step_cases taken)
        simp only [steps, runs, if_true, taken, steps_idle n stuck]

theorem mem_iterate (n : Nat) (m : Machine) :
    ((fun m : Machine => m.step.2)^[n] m).cpu.mem = m.cpu.mem := by
  rw [← steps_eq_iterate, mem_steps]

theorem remaining_saturate_le (m : Machine) (most : UInt64) :
    remaining (saturate m.cpu.cycles most) m ≤ most.toNat := by
  rw [remaining_saturate]
  exact Nat.min_le_left _ _

theorem left_runLimited (m : Machine) (most : UInt64) :
    (m.runLimited most).2 = (steps (remaining (saturate m.cpu.cycles most) m) m).2 := by
  have below := congrArg Prod.snd (runBelow_eq (saturate m.cpu.cycles most) m)
  unfold runLimited
  split <;> next ended =>
    rw [ended] at below
    exact below

theorem left_run {r : Except Fault UInt64} (h : m.run = some (r, m')) :
    m' = (steps (UInt64.size - 1) m).2 := by
  obtain ⟨e, -, ended, -⟩ := run_eq_some.mp h
  rw [ended]

/-- Where the loop below a limit ends on a machine that still runs, the limit has been reached. -/
def closing (most : UInt64) : Except Fault Unit × Machine → Except Fault Unit
  | (.error f, _) => .error f
  | (.ok (), m) => if m.cpu.isRunning then .error (.cycleLimit most) else .ok ()

theorem reached_eq_none {most : UInt64} (below : m.cpu.cycles < most) :
    CommandLine.reached (some most) m.cpu = none := by
  simpa [CommandLine.reached, Option.filter] using below

theorem reached_eq_some {most : UInt64} (full : ¬ m.cpu.cycles < most) :
    CommandLine.reached (some most) m.cpu = some most := by
  simpa [CommandLine.reached, Option.filter] using full

theorem executeFor_eq (note : Machine → String) (most : UInt64) (m : Machine) {turns : Nat}
    (enough : remaining most m < turns) (log : String) :
    ∃ log', CommandLine.executeFor note (some most) turns m log =
      some (closing most (m.runBelow most), (m.runBelow most).2, log') := by
  obtain ⟨turns, rfl⟩ := Nat.exists_eq_add_one.mpr (Nat.zero_lt_of_lt enough)
  induction m using runBelow.induct most generalizing turns log with
  | case1 m more i m' taken ih =>
    rw [remaining_step more.2 taken] at enough
    have fewer := Nat.lt_of_succ_lt_succ enough
    obtain ⟨turns, rfl⟩ := Nat.exists_eq_add_one.mpr (Nat.zero_lt_of_lt fewer)
    obtain ⟨log', rest⟩ := ih (log ++ note m) turns fewer
    refine ⟨log', ?_⟩
    rw [runBelow_step more taken, ← rest]
    simp only [CommandLine.executeFor, more.1, if_true, reached_eq_none more.2, taken]
  | case2 m more f m' taken =>
    refine ⟨log ++ note m, ?_⟩
    rw [runBelow_failed more taken, closing]
    simp only [CommandLine.executeFor, more.1, if_true, reached_eq_none more.2, taken]
  | case3 m stop =>
    refine ⟨log, ?_⟩
    rw [CommandLine.executeFor, runBelow_stopped stop]
    cases runs : m.cpu.isRunning with
    | false => simp [closing, runs]
    | true =>
      have full : ¬ m.cpu.cycles < most := fun below => stop ⟨runs, below⟩
      simp [closing, runs, reached_eq_some full]

/-- A count of 64 bits comes to its limit before all registers have been seen. -/
theorem execute_eq (note : Machine → String) (most : UInt64) (m : Machine) (log : String) :
    ∃ log', CommandLine.execute note (some most) m log =
      some (closing most (m.runBelow most), (m.runBelow most).2, log') := by
  apply executeFor_eq
  have below := most.toNat_lt
  have many : 2 ^ 64 ≤ CommandLine.registerFiles := by decide
  unfold remaining
  omega

theorem Succeeds.status (h : Succeeds k m m') (sound : m.cpu.status ≠ .error) :
    m'.cpu.status ≠ .error := by
  induction h with
  | nil => exact sound
  | cons first _ ih => exact ih (status_of_step first)

theorem runBelow_of_stepping {limit : UInt64} (h : Stepping (remaining limit m) m k e m') :
    m.runBelow limit = (e.verdict, m') := by
  rw [runBelow_eq, h.steps_eq]

/-- A new machine under the command line: what a limited run makes of it, and the limit reported
as a fault if it still runs. -/
theorem execute_runLimited (new : m.cpu.cycles = 0) (runs : m.cpu.status = .running)
    (note : Machine → String) (most : UInt64) (log : String) :
    ∃ r log', CommandLine.execute note (some most) m log =
        some (r, (m.runLimited most).2, log') ∧
      (r = .error (.cycleLimit most) ↔
        (∃ n, (m.runLimited most).1 = .ok n) ∧ (m.runLimited most).2.cpu.status = .running) ∧
      (r = .ok () ↔ (m.runLimited most).2.cpu.status = .halted) ∧
      ∀ f, (m.runLimited most).1 = .error f → r = .error f := by
  have left : remaining most m = most.toNat := by simp [remaining, new]
  have room : m.cpu.cycles.toNat + most.toNat < UInt64.size := by
    rw [new, UInt64.toNat_zero, Nat.zero_add]
    exact most.toNat_lt
  have sound : m.cpu.status ≠ .error := by simp [runs]
  obtain ⟨k, e, m', h, answer⟩ := runLimited_stepping room
  obtain ⟨log', executed⟩ := execute_eq note most m log
  have below := h
  rw [← left] at below
  rw [runBelow_of_stepping below] at executed
  refine ⟨_, log', by rw [executed, answer], ?_⟩
  rw [answer]
  cases h with
  | cutOff made runs' =>
    simp [closing, Ending.verdict, Ending.answer, runs', m'.cpu.isRunning_iff.mp runs']
  | stopped within made idle =>
    simp [closing, Ending.verdict, Ending.answer, idle,
      halted_of_idle idle (made.status sound)]
  | failed within made runs' failure =>
    have ended := step_cases failure
    simp [closing, Ending.verdict, Ending.answer, error_of_failed runs' ended,
      ne_cycleLimit_of_failed ended]

theorem toNat_cycles_of_ok {a : UInt64} (room : m.cpu.cycles.toNat + a.toNat < UInt64.size)
    (h : m'.cpu.cycles - m.cpu.cycles = a) :
    m'.cpu.cycles.toNat = m.cpu.cycles.toNat + a.toNat := by
  rw [← toNat_add_of_room room, ← h, UInt64.add_comm, UInt64.sub_add_cancel]

theorem cycles_of_run {a : UInt64} (h : m.run = some (.ok a, m')) :
    m'.cpu.cycles - m.cpu.cycles = a := by
  unfold run at h
  split at h <;> cases h
  rfl

theorem cycles_of_runLimited {a most : UInt64} (h : m.runLimited most = (.ok a, m')) :
    m'.cpu.cycles - m.cpu.cycles = a := by
  unfold runLimited at h
  split at h <;> cases h
  rfl

end

inductive Call where
  | step
  | run
  | runLimited (most : UInt64)
  deriving DecidableEq

def call (m : Machine) : Call → Option Machine
  | .step => some m.step.2
  | .run => m.run.map Prod.snd
  | .runLimited most => some (m.runLimited most).2

theorem mem_call {m m' : Machine} {c : Call} (h : m.call c = some m') :
    m'.cpu.mem = m.cpu.mem := by
  cases c with
  | step =>
    cases h
    exact mem_step m
  | run =>
    obtain ⟨⟨r, left⟩, ended, rfl⟩ := Option.map_eq_some_iff.mp h
    rw [left_run ended]
    exact mem_steps _ m
  | runLimited most =>
    cases h
    rw [left_runLimited]
    exact mem_steps _ m

/-- However a machine is run, it is stepped until it ends. The sums bound the count, which has 64
bits; a step that fails is not counted. -/
theorem runs_agree (m : Machine) :
    (∀ first second : UInt64,
      m.cpu.cycles.toNat + first.toNat + second.toNat < UInt64.size →
        m.runLimited (first + second) = m.runInTurn first second) ∧
    (∀ most : UInt64, m.cpu.cycles.toNat + most.toNat < UInt64.size →
      ∃ k e m', Stepping most.toNat m k e m' ∧ m.runLimited most = (e.answer k, m')) ∧
    (∀ k m', m.cpu.cycles.toNat + k + 1 < UInt64.size →
      (m.run = some (.ok (UInt64.ofNat k), m') ↔ ∀ most : UInt64, k < most.toNat →
        m.cpu.cycles.toNat + most.toNat < UInt64.size →
          m.runLimited most = (.ok (UInt64.ofNat k), m')) ∧
      ∀ f, m'.cpu.cycles.toNat = m.cpu.cycles.toNat + k →
        (m.run = some (.error f, m') ↔ ∀ most : UInt64, k < most.toNat →
          m.cpu.cycles.toNat + most.toNat < UInt64.size →
            m.runLimited most = (.error f, m'))) ∧
    (m.cpu.cycles = 0 → m.cpu.status = .running → ∀ note most log, ∃ r log',
      CommandLine.execute note (some most) m log = some (r, (m.runLimited most).2, log') ∧
      (r = .error (.cycleLimit most) ↔
        (∃ n, (m.runLimited most).1 = .ok n) ∧ (m.runLimited most).2.cpu.status = .running) ∧
      (r = .ok () ↔ (m.runLimited most).2.cpu.status = .halted) ∧
      ∀ f, (m.runLimited most).1 = .error f → r = .error f) := by
  refine ⟨fun first second => runLimited_add, fun most => runLimited_stepping,
    fun k m' room => ⟨⟨fun ran => ?_, fun all => ?_⟩, fun f count => ?_⟩, execute_runLimited⟩
  · have small : (UInt64.ofNat k).toNat = k := UInt64.toNat_ofNat_of_lt' (by omega)
    have count := toNat_cycles_of_ok (by omega) (cycles_of_run ran)
    rw [small] at count
    exact (run_iff_runLimited count room).mp ran
  · have small : (UInt64.ofNat k).toNat = k := UInt64.toNat_ofNat_of_lt' (by omega)
    have next : (UInt64.ofNat (k + 1)).toNat = k + 1 := UInt64.toNat_ofNat_of_lt' (by omega)
    have ran := all (UInt64.ofNat (k + 1)) (by omega) (by omega)
    have count := toNat_cycles_of_ok (by omega) (cycles_of_runLimited ran)
    rw [small] at count
    exact (run_iff_runLimited count room).mpr all
  · exact run_iff_runLimited count room

end Ls8.Machine
