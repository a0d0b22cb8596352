import Ls8.Proofs.Printed

/-! The exit status and the standard output of a program that is run. The program and the limit on
its instructions decide both; the other options are about the log and about a file. -/
namespace Ls8

namespace CommandLine

open Machine

/-- How a program ends, and after how many instructions. One that fails is the last of them. -/
inductive Ends (most : Option UInt64) (m : Machine) : Exit → Nat → Prop
  | halted {k : Nat} {m' : Machine} (within : ∀ n ∈ most, k < n.toNat) (made : Succeeds k m m')
      (halts : m'.step.1 = .ok .halt) : Ends most m .success (k + 1)
  | failed {k : Nat} {m' : Machine} {f : Fault} (within : ∀ n ∈ most, k < n.toNat)
      (made : Succeeds k m m') (runs : m'.cpu.isRunning = true) (fails : m'.step.1 = .error f) :
      Ends most m .failed (k + 1)
  | limited {n : UInt64} {m' : Machine} (limit : most = some n) (made : Succeeds n.toNat m m')
      (runs : m'.cpu.isRunning = true) : Ends most m .failed n.toNat

section

variable {m m' : Machine} {most : Option UInt64} {e : Exit} {k : Nat} {note : Machine → String}

theorem runs_of_halts (h : m.step.1 = .ok .halt) : m.cpu.isRunning = true :=
  runs_of_step (Prod.ext h rfl : m.step = (.ok .halt, m.step.2))

theorem stops_of_halts (h : m.step.1 = .ok .halt) : m.step.2.cpu.isRunning = false := by
  have halted := (halted_of_step (Prod.ext h rfl : m.step = (.ok .halt, m.step.2))).mpr rfl
  simp [Cpu.isRunning, halted]

theorem goesOn_succ (h : m.GoesOn k) : m.GoesOn (k + 1) ∨ ∃ m', Succeeds k m m' ∧
    (m'.step.1 = .ok .halt ∨ m'.cpu.isRunning = true ∧ ∃ f, m'.step.1 = .error f) := by
  obtain ⟨m', made, runs⟩ := h
  rcases taken : m'.step with ⟨answer, m''⟩
  cases answer with
  | error f => exact .inr ⟨m', made, .inr ⟨runs, f, by rw [taken]⟩⟩
  | ok i =>
    cases goes : m''.cpu.isRunning with
    | true => exact .inl ⟨m'', made.append (.cons taken (.nil m'')), goes⟩
    | false =>
      have halted := halted_of_idle goes (status_of_step taken)
      obtain rfl := (halted_of_step taken).mp halted
      exact .inr ⟨m', made, .inl (by rw [taken])⟩

/-- A machine ends within so many instructions, or it goes on for as many. -/
theorem ends_or_goesOn (runs : m.cpu.isRunning = true) (j : Nat)
    (within : ∀ n ∈ most, j ≤ n.toNat) : m.GoesOn j ∨ ∃ e k, Ends most m e k := by
  induction j with
  | zero => exact .inl ⟨m, .nil m, runs⟩
  | succ j ih =>
    rcases ih fun n limit => Nat.le_of_succ_le (within n limit) with goes | ended
    · rcases goesOn_succ goes with further | ⟨m', made, halts | ⟨runs', f, fails⟩⟩
      · exact .inl further
      · exact .inr ⟨_, _, .halted within made halts⟩
      · exact .inr ⟨_, _, .failed within made runs' fails⟩
    · exact .inr ended

/-- Every machine that runs has an end, but for those that no limit stops. -/
theorem ends_or_endless (most : Option UInt64) (runs : m.cpu.isRunning = true)
    (endless : m.out.room = none) : (∃ e k, Ends most m e k) ∨ most = none ∧ m.Endless := by
  cases most with
  | none =>
    have within : ∀ n ∈ (none : Option UInt64), registerFiles ≤ n.toNat := by simp
    rcases ends_or_goesOn runs registerFiles within with goes | ended
    · exact .inr ⟨rfl, endless_of_goesOn endless goes⟩
    · exact .inl ended
  | some n =>
    have within : ∀ n' ∈ some n, n.toNat ≤ n'.toNat := by simp
    rcases ends_or_goesOn runs n.toNat within with ⟨m', made, goes⟩ | ended
    · exact .inl ⟨_, _, .limited rfl made goes⟩
    · exact .inl ended

theorem reached_of_room (room : ∀ n ∈ most, m.cpu.cycles.toNat < n.toNat) :
    reached most m.cpu = none := by
  cases most with
  | none => rfl
  | some n => exact reached_eq_none (UInt64.lt_iff_toNat_lt.mpr (room n rfl))

theorem toNat_cycles_le (made : Succeeds k m m') :
    m'.cpu.cycles.toNat ≤ m.cpu.cycles.toNat + k := by
  rw [made.cycles, UInt64.toNat_add, UInt64.toNat_ofNat']
  exact (Nat.mod_le _ _).trans (Nat.add_le_add_left (Nat.mod_le _ _) _)

/-- The loop makes the steps that succeed, as long as the limit has room for them. -/
theorem executeFor_succeeds (note : Machine → String) (made : Succeeds k m m')
    (room : ∀ n ∈ most, m.cpu.cycles.toNat + k ≤ n.toNat) (turns : Nat) (log : String) :
    ∃ log', executeFor note most (k + turns) m log = executeFor note most turns m' log' := by
  induction made generalizing log with
  | nil => exact ⟨log, by rw [Nat.zero_add]⟩
  | @cons k m next m' i first _ ih =>
    have counted := toNat_cycles_le (.cons first (.nil next))
    have room' : ∀ n ∈ most, next.cpu.cycles.toNat + k ≤ n.toNat := by
      intro n limit
      have bound := room n limit
      omega
    have below : reached most m.cpu = none := by
      apply reached_of_room
      intro n limit
      have bound := room n limit
      omega
    obtain ⟨log', rest⟩ := ih room' (log ++ note m)
    refine ⟨log', ?_⟩
    rw [← rest, Nat.add_right_comm]
    simp only [executeFor, runs_of_step first, if_true, below, first]

theorem executeFor_stopped (idle : m.cpu.isRunning = false) (turns : Nat) (log : String) :
    executeFor note most (turns + 1) m log = some (.ok (), m, log) := by
  simp [executeFor, idle]

theorem executeFor_failed {f : Fault} (runs : m.cpu.isRunning = true)
    (fails : m.step.1 = .error f) (room : ∀ n ∈ most, m.cpu.cycles.toNat < n.toNat)
    (turns : Nat) (log : String) :
    executeFor note most (turns + 1) m log = some (.error f, m.step.2, log ++ note m) := by
  have taken : m.step = (.error f, m.step.2) := Prod.ext fails rfl
  rw [executeFor, if_pos runs, reached_of_room room]
  simp only
  rw [taken]

theorem executeFor_limited {n : UInt64} (runs : m.cpu.isRunning = true)
    (full : n ≤ m.cpu.cycles) (turns : Nat) (log : String) :
    executeFor note (some n) (turns + 1) m log = some (.error (.cycleLimit n), m, log) := by
  simp [executeFor, runs, reached, Option.filter, full]

theorem not_endless_of_halts (made : Succeeds k m m') (halts : m'.step.1 = .ok .halt) :
    ¬ m.Endless := by
  intro endless
  obtain ⟨i, m'', taken, goes⟩ := endless.goes made
  have stops := stops_of_halts halts
  rw [taken, goes] at stops
  cases stops

theorem not_endless_of_fails {f : Fault} (made : Succeeds k m m')
    (fails : m'.step.1 = .error f) : ¬ m.Endless := by
  intro endless
  obtain ⟨i, m'', taken, -⟩ := endless.goes made
  rw [taken] at fails
  cases fails

theorem lt_registerFiles (endless : m.out.room = none) (made : Succeeds k m m')
    (runs : m'.cpu.isRunning = true) (ends : ¬ m.Endless) : k < registerFiles := by
  by_contra many
  have goes : m.GoesOn k := ⟨m', made, runs⟩
  exact ends (endless_of_goesOn endless (goes.before (Nat.le_of_not_lt many)))

theorem execute_of_halts (note : Machine → String) (new : m.cpu.cycles = 0)
    (endless : m.out.room = none) (within : ∀ n ∈ most, k < n.toNat) (made : Succeeds k m m')
    (halts : m'.step.1 = .ok .halt) (log : String) :
    ∃ log', execute note most m log = some (.ok (), m'.step.2, log') := by
  have few := lt_registerFiles endless made (runs_of_halts halts)
    (not_endless_of_halts made halts)
  have whole : Succeeds (k + 1) m m'.step.2 := made.append (.next halts (.nil _))
  have start : m.cpu.cycles.toNat = 0 := by rw [new, UInt64.toNat_zero]
  have room : ∀ n ∈ most, m.cpu.cycles.toNat + (k + 1) ≤ n.toNat := by
    intro n limit
    have bound := within n limit
    omega
  obtain ⟨turns, count⟩ := Nat.exists_eq_add_of_lt few
  obtain ⟨log', steps⟩ := executeFor_succeeds note whole room (turns + 1) log
  refine ⟨log', ?_⟩
  rw [execute, count, Nat.add_right_comm k, Nat.add_assoc, steps,
    executeFor_stopped (stops_of_halts halts)]

theorem execute_of_fails {f : Fault} (note : Machine → String) (new : m.cpu.cycles = 0)
    (endless : m.out.room = none) (within : ∀ n ∈ most, k < n.toNat) (made : Succeeds k m m')
    (runs : m'.cpu.isRunning = true) (fails : m'.step.1 = .error f) (log : String) :
    ∃ log', execute note most m log = some (.error f, m'.step.2, log') := by
  have few := lt_registerFiles endless made runs (not_endless_of_fails made fails)
  have start : m.cpu.cycles.toNat = 0 := by rw [new, UInt64.toNat_zero]
  have counted := toNat_cycles_le made
  have room : ∀ n ∈ most, m.cpu.cycles.toNat + k ≤ n.toNat := by
    intro n limit
    have bound := within n limit
    omega
  have below : ∀ n ∈ most, m'.cpu.cycles.toNat < n.toNat := by
    intro n limit
    have bound := within n limit
    omega
  obtain ⟨turns, count⟩ := Nat.exists_eq_add_of_lt few
  obtain ⟨log', steps⟩ := executeFor_succeeds note made room (turns + 1 + 1) log
  refine ⟨log' ++ note m', ?_⟩
  rw [execute, count, Nat.add_assoc, Nat.add_assoc, steps, executeFor_failed runs fails below]

theorem execute_of_limit {n : UInt64} (note : Machine → String) (new : m.cpu.cycles = 0)
    (made : Succeeds n.toNat m m') (runs : m'.cpu.isRunning = true) (log : String) :
    ∃ log', execute note (some n) m log = some (.error (.cycleLimit n), m', log') := by
  have few : n.toNat < registerFiles := Nat.lt_of_lt_of_le n.toNat_lt (by decide)
  have room : ∀ n' ∈ some n, m.cpu.cycles.toNat + n.toNat ≤ n'.toNat := by simp [new]
  have full : n ≤ m'.cpu.cycles := by
    rw [made.cycles, new, UInt64.zero_add, UInt64.ofNat_toNat]
    exact UInt64.le_refl n
  obtain ⟨turns, count⟩ := Nat.exists_eq_add_of_lt few
  obtain ⟨log', steps⟩ := executeFor_succeeds note made room (turns + 1 + 1) log
  refine ⟨log', ?_⟩
  rw [execute, count, Nat.add_assoc, Nat.add_assoc, steps, executeFor_limited runs full]

def Exit.ofEnding : Except Fault Unit → Exit
  | .ok () => .success
  | .error _ => .failed

/-- As many turns as there are register files, and one, are enough for every end. -/
theorem execute_of_ends (note : Machine → String) (new : m.cpu.cycles = 0)
    (endless : m.out.room = none) (ends : Ends most m e k) (log : String) :
    ∃ r m' log', execute note most m log = some (r, m', log') ∧ Exit.ofEnding r = e ∧
      m'.out.printed = m.out.printed ++ String.ofList (shown k m) := by
  cases ends with
  | @halted k m' within made halts =>
    obtain ⟨log', executed⟩ := execute_of_halts note new endless within made halts log
    exact ⟨_, _, log', executed, rfl, printed_shown endless (made.append (.next halts (.nil _)))⟩
  | @failed k m' f within made runs fails =>
    obtain ⟨log', executed⟩ := execute_of_fails note new endless within made runs fails log
    refine ⟨_, _, log', executed, rfl, ?_⟩
    rw [printed_step (printed_of_succeeds endless made).1 runs, printed_shown endless made,
      shown_succ made, String.ofList_append, String.append_assoc]
  | @limited n m' limit made runs =>
    rw [limit]
    obtain ⟨log', executed⟩ := execute_of_limit note new made runs log
    exact ⟨_, _, log', executed, rfl, printed_shown endless made⟩

theorem execute_of_endless (h : m.Endless) (log : String) : execute note none m log = none := by
  obtain ⟨m', made, -⟩ := h (registerFiles + 1)
  have unlimited : ∀ n ∈ (none : Option UInt64),
      m.cpu.cycles.toNat + (registerFiles + 1) ≤ n.toNat := by
    simp
  obtain ⟨log', steps⟩ := executeFor_succeeds note made unlimited 0 log
  rw [execute, ← Nat.add_zero (registerFiles + 1), steps, executeFor]

end

section

variable {σ τ : Type} {w : World σ} {s : σ} {o : Options} {v : Verbosity} {m : Machine}
  {e : Exit} {k : Nat} {loaded : List Char} {p : Program} {cpu : Cpu}

def World.load (w : World σ) (s : σ) (path : List Char) : Except LoadError Program :=
  Program.ofContent path (w.read s path)

def Outcome.reply (r : Outcome σ) : Nat × String := (r.exit.code, r.stdout)

/-- Whether the program is run, and not only shown or made. -/
def Options.runs (o : Options) : Bool := !(o.assemble || o.disasm || o.debug)

theorem reply_settle (a : Answer) (w : World σ) (s : σ) :
    (a.settle w s).reply = (a.exit.code, a.stdout) := by
  unfold Answer.settle
  split <;> rfl

theorem runAnswer_of_ends (v : Verbosity) (loaded : List Char) (new : m.cpu.cycles = 0)
    (fresh : m.out = .endless) (ends : Ends o.maxCycles m e k) :
    ∃ a, runAnswer o v loaded m = some a ∧ a.exit = e ∧
      a.stdout = String.ofList (shown k m) := by
  have endless : m.out.room = none := by rw [fresh]; rfl
  obtain ⟨r, m', log', executed, exit, printed⟩ :=
    execute_of_ends (note o v) new endless ends (String.ofList loaded)
  have blank : m.out.printed = "" := by rw [fresh]; rfl
  rw [blank, String.empty_append] at printed
  rw [runAnswer, executed]
  cases r with
  | ok u => exact ⟨_, rfl, exit, printed⟩
  | error f => exact ⟨_, rfl, exit, printed⟩

theorem runAnswer_of_endless (unlimited : o.maxCycles = none) (h : m.Endless) :
    runAnswer o v loaded m = none := by
  rw [runAnswer, unlimited, execute_of_endless h]
  rfl

theorem run_of_accepted {args : List (List Char)} (accepted : parse args = .ok o)
    (runs : o.runs = true) :
    run w s args = (programAnswer o o.verbosity (w.read s o.program) (w.debug s)).map
      fun a => a.settle w s := by
  have running : o.assemble = false := by
    cases made : o.assemble <;> simp [Options.runs, made] at runs ⊢
  simp [run, accepted, answer, running]

theorem reply_of_error {args : List (List Char)} {error : LoadError}
    (accepted : parse args = .ok o) (runs : o.runs = true)
    (unloadable : w.load s o.program = .error error) :
    (run w s args).map Outcome.reply = some (2, "") := by
  have content : Program.ofContent o.program (w.read s o.program) = .error error := unloadable
  simp [run_of_accepted accepted runs, programAnswer, content, reply_settle, Answer.say,
    Exit.code]

theorem run_of_loaded {args : List (List Char)} (accepted : parse args = .ok o)
    (runs : o.runs = true) (loaded : w.load s o.program = .ok p)
    (fresh : Cpu.ofProgram p.bytes = .ok cpu) : ∃ log,
      run w s args = (runAnswer o o.verbosity log ⟨cpu, .endless⟩).map fun a => a.settle w s := by
  have content : Program.ofContent o.program (w.read s o.program) = .ok p := loaded
  have plain : o.disasm = false ∧ o.debug = false := by
    cases shown : o.disasm <;> cases stepped : o.debug <;>
      simp [Options.runs, shown, stepped] at runs ⊢
  rw [run_of_accepted accepted runs, programAnswer, content]
  simp only [plain, fresh, Bool.false_eq_true, if_false]
  exact ⟨_, rfl⟩

theorem new_of_loaded {bytes : List UInt8} (fresh : Cpu.ofProgram bytes = .ok cpu) :
    cpu.cycles = 0 ∧ cpu.isRunning = true := by
  have loaded : Cpu.new.load bytes = some (.ok cpu) := by rw [Cpu.load_new, fresh]
  obtain ⟨r, -, made⟩ := Option.map_eq_some_iff.mp loaded
  obtain ⟨mem, -, rfl⟩ := map_eq_ok.mp made
  exact ⟨rfl, rfl⟩

theorem exists_cpu_of_loaded (loaded : w.load s o.program = .ok p) :
    ∃ cpu, Cpu.ofProgram p.bytes = .ok cpu := by
  have content : Program.ofContent o.program (w.read s o.program) = .ok p := loaded
  cases read : w.read s o.program with
  | error e =>
    rw [read] at content
    cases e <;> cases content
  | ok bytes =>
    rw [read] at content
    obtain ⟨mem, fresh⟩ := Cpu.ofProgram_of_fits (Program.size_addLines (Nat.zero_le _) content)
    exact ⟨_, fresh⟩

theorem reply_of_ends {args : List (List Char)} (accepted : parse args = .ok o)
    (runs : o.runs = true) (loaded : w.load s o.program = .ok p)
    (fresh : Cpu.ofProgram p.bytes = .ok cpu) (ends : Ends o.maxCycles ⟨cpu, .endless⟩ e k) :
    (run w s args).map Outcome.reply =
      some (e.code, String.ofList (shown k ⟨cpu, .endless⟩)) := by
  obtain ⟨log, ran⟩ := run_of_loaded accepted runs loaded fresh
  obtain ⟨a, answered, exit, stdout⟩ :=
    runAnswer_of_ends o.verbosity log (new_of_loaded fresh).1 rfl ends
  rw [ran, answered, Option.map_some, Option.map_some, reply_settle, exit, stdout]

theorem run_of_endless {args : List (List Char)} (accepted : parse args = .ok o)
    (runs : o.runs = true) (loaded : w.load s o.program = .ok p)
    (fresh : Cpu.ofProgram p.bytes = .ok cpu) (unlimited : o.maxCycles = none)
    (endless : Machine.Endless ⟨cpu, .endless⟩) : run w s args = none := by
  obtain ⟨log, ran⟩ := run_of_loaded accepted runs loaded fresh
  rw [ran, runAnswer_of_endless unlimited endless]
  rfl

theorem reply_cases {args : List (List Char)} (accepted : parse args = .ok o)
    (runs : o.runs = true) (loaded : w.load s o.program = .ok p)
    (fresh : Cpu.ofProgram p.bytes = .ok cpu) :
    (∃ e k, Ends o.maxCycles ⟨cpu, .endless⟩ e k ∧ (run w s args).map Outcome.reply =
      some (e.code, String.ofList (shown k ⟨cpu, .endless⟩))) ∨
      o.maxCycles = none ∧ Machine.Endless ⟨cpu, .endless⟩ ∧ run w s args = none := by
  rcases ends_or_endless (m := ⟨cpu, .endless⟩) o.maxCycles (new_of_loaded fresh).2 rfl
    with ⟨e, k, ends⟩ | ⟨unlimited, endless⟩
  · exact .inl ⟨e, k, ends, reply_of_ends accepted runs loaded fresh ends⟩
  · exact .inr ⟨unlimited, endless, run_of_endless accepted runs loaded fresh unlimited endless⟩

theorem code_of_ends {most : Option UInt64} (h : Ends most m e k) : e.code = 0 ∨ e.code = 3 := by
  cases h with
  | halted => exact .inl rfl
  | failed | limited => exact .inr rfl

/-- The path of the program is told only where there is no file. -/
theorem load_of_read {w' : World τ} {s' : τ} {path path' : List Char}
    (same : w'.read s' path' = w.read s path) (loaded : w.load s path = .ok p) :
    w'.load s' path' = .ok p := by
  unfold World.load at loaded ⊢
  rw [same]
  cases read : w.read s path with
  | error e =>
    rw [read] at loaded
    cases e <;> cases loaded
  | ok bytes =>
    rw [read] at loaded
    exact loaded

theorem reply_eq_of_read {w' : World τ} {s' : τ} {o' : Options} {args args' : List (List Char)}
    (accepted : parse args = .ok o) (runs : o.runs = true) (accepted' : parse args' = .ok o')
    (runs' : o'.runs = true) (same : w'.read s' o'.program = w.read s o.program)
    (limit : o'.maxCycles = o.maxCycles) :
    (run w' s' args').map Outcome.reply = (run w s args).map Outcome.reply := by
  cases loaded : w.load s o.program with
  | ok p =>
    obtain ⟨cpu, fresh⟩ := exists_cpu_of_loaded loaded
    have loaded' := load_of_read same loaded
    rcases reply_cases accepted runs loaded fresh with ⟨e, k, ends, reply⟩ | ⟨free, endless, ran⟩
    · rw [← limit] at ends
      rw [reply, reply_of_ends accepted' runs' loaded' fresh ends]
    · rw [ran, run_of_endless accepted' runs' loaded' fresh (limit.trans free) endless]
      rfl
  | error e =>
    rw [reply_of_error accepted runs loaded]
    cases loaded' : w'.load s' o'.program with
    | ok p =>
      have other := load_of_read same.symm loaded'
      rw [loaded] at other
      cases other
    | error e' => exact reply_of_error accepted' runs' loaded'

end

/-- An invocation that runs a program answers 2, and prints nothing, exactly if the program cannot
be loaded. Otherwise the reply is how the program ends within the limit, with what the instructions
up to that end print; and there is none exactly if it never ends and no limit is set. Nothing else
in the options, and nothing else that can be read or written, makes a difference. -/
theorem exit_status {σ : Type} {w : World σ} {s : σ} {args : List (List Char)} {o : Options}
    (accepted : parse args = .ok o) (runs : o.runs = true) :
    (∀ text, (run w s args).map Outcome.reply = some (2, text) ↔
      text = "" ∧ ∃ e, w.load s o.program = .error e) ∧
    (∀ p, w.load s o.program = .ok p → ∃ cpu, Cpu.ofProgram p.bytes = .ok cpu ∧
      (∀ c text, (run w s args).map Outcome.reply = some (c, text) ↔
        ∃ e k, Ends o.maxCycles ⟨cpu, .endless⟩ e k ∧ c = e.code ∧
          text = String.ofList (shown k ⟨cpu, .endless⟩)) ∧
      (run w s args = none ↔ o.maxCycles = none ∧ Machine.Endless ⟨cpu, .endless⟩) ∧
      (o.maxCycles = some 0 → (run w s args).map Outcome.reply = some (3, ""))) ∧
    ∀ (τ : Type) (w' : World τ) (s' : τ) args' o', parse args' = .ok o' → o'.runs = true →
      w'.read s' o'.program = w.read s o.program → o'.maxCycles = o.maxCycles →
        (run w' s' args').map Outcome.reply = (run w s args).map Outcome.reply := by
  refine ⟨fun text => ?_, fun p loaded => ?_, fun τ w' s' args' o' accepted' runs' =>
    reply_eq_of_read accepted runs accepted' runs'⟩
  · cases loaded : w.load s o.program with
    | error e => simp [reply_of_error accepted runs loaded, eq_comm]
    | ok p =>
      obtain ⟨cpu, fresh⟩ := exists_cpu_of_loaded loaded
      rcases reply_cases accepted runs loaded fresh with ⟨e, k, ends, reply⟩ | ⟨-, -, ran⟩
      · rcases code_of_ends ends with code | code <;> simp [reply, code]
      · simp [ran]
  · obtain ⟨cpu, fresh⟩ := exists_cpu_of_loaded loaded
    have outcome := reply_cases accepted runs loaded fresh
    refine ⟨cpu, fresh, fun c text => ⟨fun replied => ?_, ?_⟩, ⟨fun ran => ?_, ?_⟩, fun zero => ?_⟩
    · rcases outcome with ⟨e, k, ends, reply⟩ | ⟨-, -, ran⟩
      · rw [reply] at replied
        cases replied
        exact ⟨e, k, ends, rfl, rfl⟩
      · rw [ran] at replied
        cases replied
    · rintro ⟨e, k, ends, rfl, rfl⟩
      exact reply_of_ends accepted runs loaded fresh ends
    · rcases outcome with ⟨e, k, ends, reply⟩ | ⟨unlimited, endless, -⟩
      · rw [ran] at reply
        cases reply
      · exact ⟨unlimited, endless⟩
    · rintro ⟨unlimited, endless⟩
      exact run_of_endless accepted runs loaded fresh unlimited endless
    · have ended : Ends o.maxCycles ⟨cpu, .endless⟩ .failed 0 :=
        .limited zero (.nil _) (new_of_loaded fresh).2
      exact reply_of_ends accepted runs loaded fresh ended

def sealed : World Unit :=
  ⟨fun _ _ => .error (.other "Permission denied (os error 13)".toList), fun _ _ _ => (.ok (), ()),
    fun _ _ => some .absent⟩

example : (run sealed () ["-v".toList, "p".toList]).map Outcome.reply = some (2, "") := by
  decide +kernel

/-- `LDI R0,8`, `PRN R0` and `HLT` in a file. -/
def eight : Files :=
  Files.empty.add ["p".toList]
    (.file (Files.bytesOf "10000010\n0\n1000 # 8\n01000111\n0\n1\n".toList))

def eightLoaded : Machine :=
  let bytes : List UInt8 := [0x82, 0, 8, 0x47, 0, 1]
  ⟨{ Cpu.new with mem := ⟨(bytes ++ List.replicate (Memory.space - bytes.length) 0).toArray⟩ },
    .endless⟩

theorem exit_status_eight :
    let args := ["-n", "3", "-t", "--dump-state", "gone/state", "p"].map String.toList
    let o : Options :=
      ⟨"p".toList, some 3, true, false, false, false, some "gone/state".toList, 0, false⟩
    parse args = .ok o ∧ o.runs = true ∧
      eight.write "gone/state".toList [] = .error .notFound ∧
      (run .ofFiles eight args).map Outcome.reply = some (0, "8\n") := by
  intro args o
  have accepted : parse args = .ok o := by decide +kernel
  have runs : o.runs = true := by decide
  have loaded : World.ofFiles.load eight o.program = .ok ⟨[0x82, 0, 8, 0x47, 0, 1],
      ["10000010", "0", "1000 # 8", "01000111", "0", "1"].map String.toList⟩ := by decide +kernel
  have first : eightLoaded.step.1 = .ok (.load 0 8) := by decide +kernel
  have second : eightLoaded.step.2.step.1 = .ok (.print 0) := by decide +kernel
  have third : eightLoaded.step.2.step.2.step.1 = .ok .halt := by decide +kernel
  have within : ∀ n ∈ some (3 : UInt64), 2 < n.toNat := by simp
  have ends : Ends (some 3) eightLoaded .success 3 :=
    .halted within (.next first (.next second (.nil _))) third
  have printed : "8\n" = String.ofList (shown 3 eightLoaded) := by decide +kernel
  obtain ⟨-, loads, -⟩ := exit_status (w := .ofFiles) (s := eight) accepted runs
  obtain ⟨cpu, fresh, reply, -⟩ := loads _ loaded
  cases fresh.symm.trans (Cpu.ofProgram_eq (by decide))
  exact ⟨accepted, runs, by decide +kernel, (reply 0 "8\n").mpr ⟨_, _, ends, rfl, printed⟩⟩

end CommandLine
end Ls8
