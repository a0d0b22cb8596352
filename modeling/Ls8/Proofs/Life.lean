import Ls8.Proofs.Runs

/-! The life of a processor. Its count, its last instruction, its status and its comparison bits are
told by the steps it has tried since it was new or last reset, whatever else was done to it. -/
namespace Ls8

def Flags.updated (f : Flags) : Option (UInt8 × UInt8) → Flags
  | some (x, y) => .compare x y
  | none => f

namespace Machine

/-- The machines at which a run of at most so many steps tries one, in order. -/
def tries : Nat → Machine → List Machine
  | 0, _ => []
  | n + 1, m => if m.cpu.isRunning then m :: tries n m.step.2 else []

/-- The machines at which a call tries a step. A limited run stops trying where the count is full. -/
def Call.tries (m : Machine) : Call → List Machine
  | .step => [m]
  | .run => Machine.tries (UInt64.size - 1) m
  | .runLimited most => Machine.tries (remaining (saturate m.cpu.cycles most) m) m

/-- The values that a step compares, also if the counter cannot move on after it. -/
def compared (m : Machine) : Option (UInt8 × UInt8) :=
  if m.cpu.isRunning then m.cpu.fetch.toOption.bind (·.compares m.cpu.regs) else none

/-- A step is tried at each of the machines in turn, and the last one leaves `m'`. -/
inductive Trying : Machine → List Machine → Machine → Prop where
  | nil (m : Machine) : Trying m [] m
  | cons {m m' : Machine} {ms : List Machine} (rest : Trying m.step.2 ms m') :
      Trying m (m :: ms) m'

section

variable {m m' : Machine} {c : Call}

theorem tries_idle (n : Nat) (idle : m.cpu.isRunning = false) : tries n m = [] := by
  cases n <;> simp [tries, idle]

theorem trying_steps (n : Nat) (m : Machine) : Trying m (tries n m) (steps n m).2 := by
  induction n generalizing m with
  | zero => exact .nil m
  | succ n ih =>
    cases runs : m.cpu.isRunning with
    | false =>
      rw [tries_idle _ runs, steps_idle _ runs]
      exact .nil m
    | true =>
      rcases taken : m.step with ⟨answer, m'⟩
      have left : m.step.2 = m' := by rw [taken]
      cases answer with
      | ok i =>
        simp only [tries, steps, runs, if_true, taken]
        exact .cons (by rw [left]; exact ih m')
      | error f =>
        -- A machine whose step has failed does not try another one.
        have stuck := stuck_of_failed runs (step_cases taken)
        simp only [tries, steps, runs, if_true, taken, tries_idle n stuck]
        exact .cons (by rw [left]; exact .nil m')

theorem trying_call (h : m.call c = some m') : Trying m (c.tries m) m' := by
  cases c with
  | step =>
    cases h
    exact .cons (.nil _)
  | run =>
    obtain ⟨⟨r, last⟩, ended, rfl⟩ := Option.map_eq_some_iff.mp h
    rw [left_run ended]
    exact trying_steps _ m
  | runLimited most =>
    cases h
    rw [left_runLimited]
    exact trying_steps _ m

end

end Machine

section

variable {i : Instruction} {r r' : Registers} {e : Effect} {x y : UInt8}

theorem effect_of_compares (h : i.compares r = some (x, y)) :
    i.effect r = .ok (.update (r.compare x y)) := by
  cases i with
  | compare a b =>
    simp only [Instruction.compares] at h
    split at h
    · next left right =>
      cases h
      rw [Instruction.effect, read_eq_ok.mpr left, read_eq_ok.mpr right]
      rfl
    · cases h
  | _ => cases h

theorem flags_of_effect (h : i.effect r = .ok (.update r')) :
    r'.flags = r.flags.updated (i.compares r) := by
  rcases update_cases h with ⟨x, y, values, rfl⟩ | ⟨none, same⟩
  · rw [values]
    rfl
  · rw [none]
    rcases same with rfl | ⟨j, v, changed⟩
    · rfl
    · exact (kept_of_set changed).2

theorem halt_of_effect (h : i.effect r = .ok .halt) : i = .halt := by
  by_cases stops : i = .halt
  · exact stops
  · cases jumps : i.jumps r.flags with
    | false =>
      have moves := moves_of_effect stops jumps h
      cases moves
    | true =>
      cases i with
      | jump c reg =>
        have taken : c.holds r.flags = true := jumps
        simp only [Instruction.effect, taken] at h
        obtain ⟨target, -, other⟩ := map_eq_ok.mp h
        cases other
      | _ => cases jumps

end

namespace Machine

section

variable {m m' : Machine} {i : Instruction} {e : Effect} {f : Fault}

theorem flags_settle (asked : i.effect m.cpu.regs = .ok e) :
    (m.settle e).cpu.regs.flags = m.cpu.regs.flags.updated (i.compares m.cpu.regs) := by
  cases compared : i.compares m.cpu.regs with
  | none =>
    cases e with
    | update r =>
      have same := flags_of_effect asked
      rwa [compared] at same
    | _ => rfl
  | some values =>
    have update := effect_of_compares compared
    cases asked.symm.trans update
    rfl

theorem compared_of_fetch (runs : m.cpu.isRunning = true) (fetched : m.cpu.fetch = .ok i) :
    m.compared = i.compares m.cpu.regs := by
  rw [compared, if_pos runs, fetched]
  rfl

theorem compares_of_unable (asked : i.effect m.cpu.regs = .error f) :
    i.compares m.cpu.regs = none := by
  cases compared : i.compares m.cpu.regs with
  | none => rfl
  | some values =>
    have update := effect_of_compares compared
    cases asked.symm.trans update

theorem flags_step (m : Machine) :
    m.step.2.cpu.regs.flags = m.cpu.regs.flags.updated m.compared := by
  have ended := stepped m
  generalize m.step.1 = a, m.step.2 = m' at ended ⊢
  cases ended with
  | idle stopped =>
    rw [compared, stopped]
    rfl
  | unread runs fetched =>
    rw [compared, if_pos runs, fetched]
    rfl
  | unable runs fetched asked =>
    rw [compared_of_fetch runs fetched, compares_of_unable asked]
    rfl
  | unprinted runs fetched asked | atEnd runs fetched asked | halted runs fetched asked
  | jumped runs fetched asked | moved runs fetched asked =>
    rw [compared_of_fetch runs fetched, ← flags_settle asked]
    rfl

theorem halted_of_step (h : m.step = (.ok i, m')) : m'.cpu.status = .halted ↔ i = .halt := by
  have going : m.cpu.status ≠ .halted := by
    rw [m.cpu.isRunning_iff.mp (runs_of_step h)]
    decide
  cases step_cases h with
  | halted _ _ asked => exact iff_of_true rfl (halt_of_effect asked)
  | jumped _ _ asked =>
    apply iff_of_false going
    rintro rfl
    cases asked
  | moved _ _ asked moves =>
    refine iff_of_false ?_ (stays_of_moves asked moves).1
    intro stopped
    exact going (status_settle.symm.trans stopped)

end

end Machine

inductive Operation where
  | call (out : Channel) (c : Machine.Call)
  | load (program : List UInt8)
  | set (i b : UInt8)
  | jump (target : UInt8)
  | write (a : Nat) (b : UInt8)
  | reset
  deriving DecidableEq

/-- A processor and the machines at which it tried a step since it was new or last reset, the latest
first. -/
structure Life where
  cpu : Cpu
  past : List Machine
  deriving DecidableEq

def successes (past : List Machine) : List Instruction := past.filterMap fun m => m.step.1.toOption

def comparisons (past : List Machine) : List (UInt8 × UInt8) := past.filterMap Machine.compared

def HasFailed (past : List Machine) : Prop :=
  ∃ m ∈ past, m.cpu.status = .running ∧ ∃ f, m.step.1 = .error f

namespace Life

def new : Life := ⟨.new, []⟩

/-- An edit that is refused or breaks off changes nothing. A run without an end leaves no life. -/
def undergo (l : Life) : Operation → Option Life
  | .call out c => (Machine.call ⟨l.cpu, out⟩ c).map fun m =>
      ⟨m.cpu, (c.tries ⟨l.cpu, out⟩).reverse ++ l.past⟩
  | .load program => some { l with
      cpu := ((l.cpu.load program).bind Except.toOption).getD l.cpu }
  | .set i b => some { l with
      cpu := { l.cpu with regs := (l.cpu.regs.set i b).toOption.getD l.cpu.regs } }
  | .jump target => some { l with cpu := { l.cpu with regs := l.cpu.regs.jump target } }
  | .write a b => some { l with
      cpu := { l.cpu with mem := (l.cpu.mem.write a b).toOption.getD l.cpu.mem } }
  | .reset => some ⟨l.cpu.reset, []⟩

/-- The past tells where the processor is. -/
structure Sound (l : Life) : Prop where
  cycles : l.cpu.cycles = .ofNat (successes l.past).length
  last : l.cpu.last = (successes l.past).head?
  halted : l.cpu.status = .halted ↔ l.cpu.last = some .halt
  failed : l.cpu.status = .error ↔ HasFailed l.past
  flags : l.cpu.regs.flags = Flags.unset.updated (comparisons l.past).head?

section

variable {l l' : Life} {m m' : Machine} {past : List Machine} {c : Cpu}

theorem sound_new : new.Sound := by
  refine ⟨rfl, rfl, ?_, ?_, rfl⟩
  · decide
  · constructor
    · intro error
      cases error
    · rintro ⟨m, member, -⟩
      cases member

theorem successes_of_ok {i : Instruction} (h : m.step.1 = .ok i) :
    successes (m :: past) = i :: successes past := by
  rw [successes, List.filterMap_cons, h]
  rfl

theorem successes_of_error {f : Fault} (h : m.step.1 = .error f) :
    successes (m :: past) = successes past := by
  rw [successes, List.filterMap_cons, h]
  rfl

theorem hasFailed_cons : HasFailed (m :: past) ↔
    (m.cpu.status = .running ∧ ∃ f, m.step.1 = .error f) ∨ HasFailed past :=
  List.exists_mem_cons_iff _ m past

theorem flags_cons (h : m.cpu.regs.flags = Flags.unset.updated (comparisons past).head?) :
    m.step.2.cpu.regs.flags = Flags.unset.updated (comparisons (m :: past)).head? := by
  rw [Machine.flags_step, h, comparisons, comparisons, List.filterMap_cons]
  cases m.compared with
  | none => rfl
  | some values => rfl

theorem sound_ok {i : Instruction} (h : Sound ⟨m.cpu, past⟩) (taken : m.step = (.ok i, m')) :
    Sound ⟨m'.cpu, m :: past⟩ := by
  have answer : m.step.1 = .ok i := by rw [taken]
  have left : m.step.2 = m' := by rw [taken]
  have runs := m.cpu.isRunning_iff.mp (Machine.runs_of_step taken)
  have last := Machine.last_of_step taken
  refine ⟨?_, ?_, ?_, ?_, ?_⟩
  · have counted := Machine.cycles_step taken
    rw [successes_of_ok answer, List.length_cons, UInt64.ofNat_add, ← h.cycles]
    exact counted
  · rw [successes_of_ok answer]
    exact last
  · have halts := Machine.halted_of_step taken
    simp only [last, Option.some.injEq]
    exact halts
  · have sound : ¬ HasFailed past := by
      rw [← h.failed]
      simp [runs]
    apply iff_of_false (Machine.status_of_step taken)
    rw [hasFailed_cons]
    rintro (⟨-, f, failure⟩ | earlier)
    · cases answer.symm.trans failure
    · exact sound earlier
  · rw [← left]
    exact flags_cons h.flags

theorem sound_error {f : Fault} (h : Sound ⟨m.cpu, past⟩) (taken : m.step = (.error f, m')) :
    Sound ⟨m'.cpu, m :: past⟩ := by
  have answer : m.step.1 = .error f := by rw [taken]
  have left : m.step.2 = m' := by rw [taken]
  have ended := Machine.step_cases taken
  have kept := Machine.kept_of_failed ended
  have flags : m'.cpu.regs.flags = Flags.unset.updated (comparisons (m :: past)).head? := by
    rw [← left]
    exact flags_cons h.flags
  have cycles : m'.cpu.cycles = .ofNat (successes (m :: past)).length := by
    rw [successes_of_error answer, ← h.cycles]
    exact kept.cycles
  have last : m'.cpu.last = (successes (m :: past)).head? := by
    rw [successes_of_error answer, ← h.last]
    exact kept.last
  by_cases runs : m.cpu.status = .running
  · have stuck := Machine.error_of_failed (m.cpu.isRunning_iff.mpr runs) ended
    have unhalted : m.cpu.last ≠ some .halt := by
      intro halts
      rw [h.halted.mpr halts] at runs
      cases runs
    refine ⟨cycles, last, ?_, ?_, flags⟩
    · apply iff_of_false
      · simp [stuck]
      · rwa [kept.last]
    · exact iff_of_true stuck (hasFailed_cons.mpr (.inl ⟨runs, f, answer⟩))
  · obtain ⟨-, rfl⟩ := Machine.idle_of_failed (fun goes => runs (m.cpu.isRunning_iff.mp goes)) ended
    refine ⟨cycles, last, h.halted, ?_, flags⟩
    rw [hasFailed_cons, ← h.failed]
    simp [runs]

theorem sound_step (h : Sound ⟨m.cpu, past⟩) : Sound ⟨m.step.2.cpu, m :: past⟩ := by
  rcases taken : m.step with ⟨answer, m'⟩
  cases answer with
  | ok i => exact sound_ok h taken
  | error f => exact sound_error h taken

theorem sound_trying {tried : List Machine} (way : Machine.Trying m tried m')
    (h : Sound ⟨m.cpu, past⟩) : Sound ⟨m'.cpu, tried.reverse ++ past⟩ := by
  induction way generalizing past with
  | nil => exact h
  | cons rest ih =>
    rw [List.reverse_cons, List.append_assoc]
    exact ih (sound_step h)

structure Steady (c c' : Cpu) : Prop where
  status : c'.status = c.status
  cycles : c'.cycles = c.cycles
  last : c'.last = c.last
  flags : c'.regs.flags = c.regs.flags

theorem Sound.edit (h : l.Sound) {c : Cpu} (same : Steady l.cpu c) : Sound ⟨c, l.past⟩ := by
  refine ⟨?_, ?_, ?_, ?_, ?_⟩
  · rw [← h.cycles]
    exact same.cycles
  · rw [← h.last]
    exact same.last
  · rw [same.status, same.last]
    exact h.halted
  · rw [same.status]
    exact h.failed
  · rw [← h.flags]
    exact same.flags

theorem steady_load (c : Cpu) (program : List UInt8) :
    Steady c (((c.load program).bind Except.toOption).getD c) := by
  unfold Cpu.load
  rcases c.mem.load 0 program with _ | e | mem <;> exact ⟨rfl, rfl, rfl, rfl⟩

theorem steady_set (c : Cpu) (i b : UInt8) :
    Steady c { c with regs := (c.regs.set i b).toOption.getD c.regs } := by
  refine ⟨rfl, rfl, rfl, ?_⟩
  cases changed : c.regs.set i b with
  | error e => rfl
  | ok r => exact (kept_of_set changed).2

theorem undergo_cases {op : Operation} (done : l.undergo op = some l') :
    (∃ out c m, op = .call out c ∧ Machine.call ⟨l.cpu, out⟩ c = some m ∧
      l' = ⟨m.cpu, (c.tries ⟨l.cpu, out⟩).reverse ++ l.past⟩) ∨
    (op = .reset ∧ l' = ⟨l.cpu.reset, []⟩) ∨ ∃ c, Steady l.cpu c ∧ l' = ⟨c, l.past⟩ := by
  cases op with
  | call out c =>
    obtain ⟨m, left, rfl⟩ := Option.map_eq_some_iff.mp done
    exact .inl ⟨out, c, m, rfl, left, rfl⟩
  | load program =>
    cases done
    exact .inr (.inr ⟨_, steady_load l.cpu program, rfl⟩)
  | set i b =>
    cases done
    exact .inr (.inr ⟨_, steady_set l.cpu i b, rfl⟩)
  | jump target =>
    cases done
    refine .inr (.inr ⟨_, ?_, rfl⟩)
    exact ⟨rfl, rfl, rfl, rfl⟩
  | write a b =>
    cases done
    refine .inr (.inr ⟨_, ?_, rfl⟩)
    exact ⟨rfl, rfl, rfl, rfl⟩
  | reset =>
    cases done
    exact .inr (.inl ⟨rfl, rfl⟩)

theorem sound_reset (c : Cpu) : Sound ⟨c.reset, []⟩ :=
  ⟨rfl, rfl, sound_new.halted, sound_new.failed, rfl⟩

theorem sound_undergo {op : Operation} (h : l.Sound) (done : l.undergo op = some l') :
    l'.Sound := by
  rcases undergo_cases done with ⟨out, c, m, -, left, rfl⟩ | ⟨-, rfl⟩ | ⟨c, same, rfl⟩
  · exact sound_trying (Machine.trying_call left) h
  · exact sound_reset l.cpu
  · exact h.edit same

theorem sound_of_lived (ops : List Operation) (h : l.Sound)
    (lived : ops.foldlM undergo l = some l') : l'.Sound := by
  induction ops generalizing l with
  | nil =>
    cases lived
    exact h
  | cons op ops ih =>
    obtain ⟨next, first, rest⟩ := Option.bind_eq_some_iff.mp lived
    exact ih (sound_undergo h first) rest

end

end Life

namespace Machine

structure Idle (m : Machine) : Prop where
  step : m.step = (.error (.notRunning m.cpu.status), m)
  run : m.run = some (.ok 0, m)
  runLimited : ∀ most, m.runLimited most = (.ok 0, m)

theorem idle_of_stopped {m : Machine} (stopped : m.cpu.status ≠ .running) : m.Idle := by
  have idle : m.cpu.isRunning = false := by
    simpa [Cpu.isRunning] using stopped
  refine ⟨?_, ?_, ?_⟩
  · simp [Machine.step, idle]
  · simp [Machine.run, steps_idle _ idle]
  · intro most
    simp [Machine.runLimited, runBelow_stopped, idle]

theorem call_of_idle {m m' : Machine} {c : Call} (h : m.Idle) (left : m.call c = some m') :
    m' = m := by
  cases c with
  | step =>
    cases left
    rw [h.step]
  | run =>
    rw [call, h.run] at left
    cases left
    rfl
  | runLimited most =>
    cases left
    rw [h.runLimited]

end Machine

namespace Life

section

variable {l l' : Life}

theorem status_of_stopped {op : Operation} (stopped : l.cpu.status ≠ .running)
    (other : op ≠ .reset) (done : l.undergo op = some l') : l'.cpu.status = l.cpu.status := by
  rcases undergo_cases done with ⟨out, c, m, -, left, rfl⟩ | ⟨again, -⟩ | ⟨c, same, rfl⟩
  · rw [Machine.call_of_idle (Machine.idle_of_stopped stopped) left]
  · exact absurd again other
  · exact same.status

theorem stopped_of_lived (ops : List Operation) (stopped : l.cpu.status ≠ .running)
    (none : .reset ∉ ops) (lived : ops.foldlM undergo l = some l') :
    l'.cpu.status = l.cpu.status := by
  induction ops generalizing l with
  | nil =>
    cases lived
    rfl
  | cons op ops ih =>
    obtain ⟨next, first, rest⟩ := Option.bind_eq_some_iff.mp lived
    have other : op ≠ .reset := fun again => none (again ▸ List.mem_cons_self)
    have kept := status_of_stopped stopped other first
    rw [← kept] at stopped ⊢
    exact ih stopped (fun later => none (List.mem_cons_of_mem op later)) rest

end

end Life

namespace Flags

def bits (f : Flags) : List Bool := [f.equal, f.greater, f.less]

theorem count_compare (x y : UInt8) : (compare x y).bits.count true = 1 := by
  rcases Nat.lt_trichotomy x.toNat y.toNat with less | same | greater
  · have below : x < y := UInt8.lt_iff_toNat_lt.mpr less
    have above : ¬ y < x := UInt8.lt_asymm below
    have other : x ≠ y := UInt8.ne_of_lt below
    simp [bits, compare, below, above, other]
  · obtain rfl := UInt8.toNat_inj.mp same
    simp [bits, compare]
  · have below : y < x := UInt8.lt_iff_toNat_lt.mpr greater
    have above : ¬ x < y := UInt8.lt_asymm below
    have other : x ≠ y := (UInt8.ne_of_lt below).symm
    simp [bits, compare, below, above, other]

/-- Bits that are unset until a comparison, and tell what the latest one found. -/
theorem latest_comparison {f : Flags} {pairs : List (UInt8 × UInt8)}
    (h : f = unset.updated pairs.head?) :
    f.bits.count true ≤ 1 ∧ (f = unset ↔ pairs = []) ∧
      ∀ x y, pairs.head? = some (x, y) →
        f = ⟨decide (x = y), decide (y < x), decide (x < y)⟩ := by
  cases pairs with
  | nil =>
    rw [h]
    exact ⟨by decide, iff_of_true rfl rfl, by simp⟩
  | cons first pairs =>
    obtain ⟨x, y⟩ := first
    have found : f = compare x y := h
    have one := count_compare x y
    rw [found]
    refine ⟨Nat.le_of_eq one, ?_, ?_⟩
    · refine iff_of_false ?_ (List.cons_ne_nil _ _)
      intro none
      rw [none] at one
      cases one
    · rintro x y same
      cases same
      rw [compare, beq_eq_decide]

end Flags

/-- Whatever is done to a new processor: its count and last instruction are those of the steps that
succeeded since the last reset; it has halted iff the last one was the halt, and is in error iff a step
failed; stopped, it stays as it is until a reset; and its bits are those of the latest comparison. -/
theorem life_cycle (ops : List Operation) (l : Life)
    (lived : ops.foldlM Life.undergo .new = some l) :
    l.cpu.cycles = .ofNat (successes l.past).length ∧
    ((successes l.past).length < UInt64.size →
      l.cpu.cycles.toNat = (successes l.past).length ∧ (l.cpu.last = none ↔ l.cpu.cycles = 0)) ∧
    l.cpu.last = (successes l.past).head? ∧
    (l.cpu.status = .halted ↔ l.cpu.last = some .halt) ∧
    (l.cpu.status = .error ↔ HasFailed l.past) ∧
    (l.cpu.status ≠ .running → ∀ (later : List Operation) l', .reset ∉ later →
      later.foldlM Life.undergo l = some l' →
        l'.cpu.status = l.cpu.status ∧ ∀ out, Machine.Idle ⟨l'.cpu, out⟩) ∧
    l.cpu.regs.flags.bits.count true ≤ 1 ∧
    (l.cpu.regs.flags = .unset ↔ comparisons l.past = []) ∧
    ∀ x y, (comparisons l.past).head? = some (x, y) →
      l.cpu.regs.flags = ⟨decide (x = y), decide (y < x), decide (x < y)⟩ := by
  have sound := Life.sound_of_lived ops Life.sound_new lived
  refine ⟨sound.cycles, ?_, sound.last, sound.halted, sound.failed, ?_, ?_⟩
  · intro small
    have count : l.cpu.cycles.toNat = (successes l.past).length := by
      rw [sound.cycles]
      exact UInt64.toNat_ofNat_of_lt' small
    refine ⟨count, ?_⟩
    rw [sound.last, List.head?_eq_none_iff, ← List.length_eq_zero_iff, ← count]
    exact UInt64.toNat_inj (b := 0)
  · intro stopped later l' none lived'
    have kept := Life.stopped_of_lived later stopped none lived'
    rw [← kept] at stopped
    exact ⟨kept, fun out => Machine.idle_of_stopped stopped⟩
  · exact Flags.latest_comparison sound.flags

/-- `LDI R0,8`, `CMP R0,R1` and `HLT`, with `R0` cleared after the comparison. -/
def comparedOnce : List Operation :=
  [.load [0x82, 0, 8, 0xA7, 0, 1, 1], .call .endless .step, .call .endless .step, .set 0 0,
    .call .endless .step, .jump 9]

theorem life_cycle_comparedOnce :
    ∃ l, comparedOnce.foldlM Life.undergo .new = some l ∧
      successes l.past = [.halt, .compare 0 1, .load 0 8] ∧ comparisons l.past = [(8, 0)] ∧
      l.cpu.cycles.toNat = 3 ∧ l.cpu.status = .halted ∧ l.cpu.regs.flags = ⟨false, true, false⟩ ∧
      Machine.Idle ⟨l.cpu, .endless⟩ := by
  have ends : (comparedOnce.foldlM Life.undergo .new).isSome = true := by decide +kernel
  obtain ⟨l, lived⟩ := Option.isSome_iff_exists.mp ends
  have past : (comparedOnce.foldlM Life.undergo .new).map (fun l => successes l.past) =
      some [.halt, .compare 0 1, .load 0 8] := by decide +kernel
  have pairs : (comparedOnce.foldlM Life.undergo .new).map (fun l => comparisons l.past) =
      some [(8, 0)] := by decide +kernel
  rw [lived, Option.map_some, Option.some.injEq] at past pairs
  obtain ⟨-, counted, last, halted, -, stays, -, -, bits⟩ := life_cycle comparedOnce l lived
  rw [past] at counted last
  have stopped := halted.mpr last
  have idle := stays (by rw [stopped]; decide) [] l List.not_mem_nil rfl
  exact ⟨l, lived, past, pairs, (counted (by decide)).1, stopped, bits 8 0 (by rw [pairs]; rfl),
    idle.2 .endless⟩

end Ls8
