import Ls8.Proofs.Assembly.TwoPass
import Ls8.Proofs.Runs
import Ls8.Session

/-! A session and the program that it holds. Whatever is asked of it, it holds the program of the
latest load that succeeded, and its machine is the plain one with that program after some steps. -/
namespace Ls8.Session

/-- What is asked of a session. A query answers from the session and leaves it. -/
inductive Request where
  | loadText (source : List Char)
  | loadAssembly (source : List Char)
  | step
  | run (limit : UInt32)
  | reset
  | query
  deriving DecidableEq

def serve (s : Session) : Request → Session
  | .loadText source => (s.loadText source).2
  | .loadAssembly source => (s.loadAssembly source).2
  | .step => s.step.2
  | .run limit => (s.run limit).2
  | .reset => s.reset
  | .query => s

namespace Request

def program : Request → Option (List UInt8)
  | loadText source => (Program.parse source).toOption.map Program.bytes
  | loadAssembly source => (assemble source).toOption
  | _ => none

def begins (r : Request) : Bool := r.program.isSome || r == reset

def most : Request → Nat
  | step => 1
  | run limit => limit.toNat
  | _ => 0

end Request

def latest (rs : List Request) : List UInt8 := (rs.filterMap Request.program).getLastD []

/-- How many steps may have been taken since the machine last began anew, if it was `n` before. -/
def stepsSince (n : Nat) : List Request → Nat
  | [] => n
  | r :: rest => stepsSince (if r.begins then 0 else n + r.most) rest

/-- The machine of a session that holds a program is where the plain one with that program is after
at most so many steps. -/
structure Follows (program : List UInt8) (n : Nat) (s : Session) : Prop where
  holds : s.program = program
  fits : program.length ≤ Memory.space
  machine : ∃ cpu, Cpu.ofProgram program = .ok cpu ∧
    ∃ k ≤ n, s.machine = (fun m : Machine => m.step.2)^[k] ⟨cpu, .endless⟩

section

variable {s : Session} {program : List UInt8} {cpu : Cpu} {n : Nat} {r : Request}
  {source : List Char}

theorem load_eq (s : Session) (h : Cpu.ofProgram program = .ok cpu) :
    s.load program = (.ok program.length, ⟨⟨cpu, .endless⟩, program⟩) := by
  simp only [load, h]

theorem size_parsed {p : Program} (h : Program.parse source = .ok p) :
    p.bytes.length ≤ Memory.space :=
  Program.size_addLines (Nat.zero_le _) h

/-- A load that succeeds has nothing but its program to do with its source, and the program has
room. -/
theorem loads_of_program (s : Session) (h : r.program = some program) :
    program.length ≤ Memory.space ∧ serve s r = (s.load program).2 := by
  cases r with
  | loadText source =>
    cases parsed : Program.parse source with
    | error e => simp [Request.program, parsed, Except.toOption] at h
    | ok p =>
      rw [Request.program, parsed] at h
      cases h
      exact ⟨size_parsed parsed, by simp only [serve, loadText, parsed]⟩
  | loadAssembly source =>
    cases made : assemble source with
    | error e => simp [Request.program, made, Except.toOption] at h
    | ok bytes =>
      rw [Request.program, made] at h
      cases h
      exact ⟨Assembly.length_of_ok made, by simp only [serve, loadAssembly, made]⟩
  | _ => cases h

theorem follows_begun (fits : program.length ≤ Memory.space)
    (loads : Cpu.ofProgram program = .ok cpu) :
    Follows program 0 ⟨⟨cpu, .endless⟩, program⟩ :=
  ⟨rfl, fits, cpu, loads, 0, Nat.le_refl 0, rfl⟩

theorem follows_new : Follows [] 0 new := by
  have loads : Cpu.ofProgram [] = .ok .new := by
    rw [Cpu.ofProgram_eq (Nat.zero_le _)]
    rfl
  exact follows_begun (Nat.zero_le _) loads

theorem follows_load (s : Session) (h : r.program = some program) :
    Follows program 0 (serve s r) := by
  obtain ⟨fits, served⟩ := loads_of_program s h
  obtain ⟨mem, loads⟩ := Cpu.ofProgram_of_fits fits
  rw [served, load_eq s loads]
  exact follows_begun fits loads

theorem reset_eq (s : Session) (h : Cpu.ofProgram s.program = .ok cpu) :
    s.reset = ⟨⟨cpu, .endless⟩, s.program⟩ := by
  simp only [reset, h]

theorem follows_reset (h : Follows program n s) : Follows program 0 s.reset := by
  obtain ⟨cpu, loads, -⟩ := h.machine
  rw [← h.holds] at loads
  rw [reset_eq s loads, h.holds]
  rw [h.holds] at loads
  exact follows_begun h.fits loads

theorem Follows.further (h : Follows program n s) {s' : Session} {j most : Nat}
    (within : j ≤ most) (same : s'.program = s.program)
    (steps : s'.machine = (fun m : Machine => m.step.2)^[j] s.machine) :
    Follows program (n + most) s' := by
  obtain ⟨cpu, loads, k, bound, place⟩ := h.machine
  refine ⟨same.trans h.holds, h.fits, cpu, loads, j + k, by omega, ?_⟩
  rw [steps, place, Function.iterate_add_apply]

theorem machine_step (s : Session) : s.step.2.machine = s.machine.step.2 := by
  unfold step
  split <;> next taken => rw [taken]

theorem machine_run (s : Session) (limit : UInt32) :
    ∃ j ≤ limit.toNat, (s.run limit).2.machine = (fun m : Machine => m.step.2)^[j] s.machine := by
  have left : (s.run limit).2.machine = (s.machine.runLimited limit.toUInt64).2 := by
    unfold run
    split <;> next ended => rw [ended]
  refine ⟨_, Machine.remaining_saturate_le s.machine limit.toUInt64, ?_⟩
  rw [left, Machine.left_runLimited, Machine.steps_eq_iterate]

theorem program_step (s : Session) : s.step.2.program = s.program := by
  unfold step
  split <;> rfl

theorem program_run (s : Session) (limit : UInt32) : (s.run limit).2.program = s.program := by
  unfold run
  split <;> rfl

theorem follows_other (h : Follows program n s) (going : r.begins = false) :
    Follows program (n + r.most) (serve s r) := by
  cases r with
  | loadText source =>
    cases parsed : Program.parse source with
    | error e =>
      have unchanged : serve s (.loadText source) = s := by simp only [serve, loadText, parsed]
      rw [unchanged]
      exact h
    | ok p => simp [Request.begins, Request.program, parsed, Except.toOption] at going
  | loadAssembly source =>
    cases made : assemble source with
    | error e =>
      have unchanged : serve s (.loadAssembly source) = s := by
        simp only [serve, loadAssembly, made]
      rw [unchanged]
      exact h
    | ok bytes => simp [Request.begins, Request.program, made, Except.toOption] at going
  | step => exact h.further (Nat.le_refl 1) (program_step s) (machine_step s)
  | run limit =>
    obtain ⟨j, within, steps⟩ := machine_run s limit
    exact h.further within (program_run s limit) steps
  | reset => cases going
  | query => exact h

theorem follows_serve (h : Follows program n s) (r : Request) :
    Follows (r.program.getD program) (if r.begins then 0 else n + r.most) (serve s r) := by
  cases loaded : r.program with
  | some bytes =>
    have begun : r.begins = true := by simp [Request.begins, loaded]
    rw [if_pos begun]
    exact follows_load s loaded
  | none =>
    by_cases again : r = .reset
    · rw [again]
      exact follows_reset h
    · have going : r.begins = false := by simp [Request.begins, loaded, again]
      rw [going]
      exact follows_other h going

theorem follows_requests (h : Follows program n s) (rs : List Request) :
    Follows ((rs.filterMap Request.program).getLastD program) (stepsSince n rs)
      (rs.foldl serve s) := by
  induction rs generalizing program n s with
  | nil => exact h
  | cons r rs ih =>
    have rest := ih (follows_serve h r)
    cases loaded : r.program with
    | none =>
      rw [loaded] at rest
      simpa only [List.filterMap_cons, loaded, Option.getD_none, stepsSince, List.foldl_cons]
        using rest
    | some bytes =>
      rw [loaded] at rest
      simpa only [List.filterMap_cons, loaded, Option.getD_some, stepsSince, List.foldl_cons,
        List.getLastD_cons] using rest

theorem memoryAll_of_follows (h : Follows program n s) :
    s.memoryAll = program ++ List.replicate (Memory.space - program.length) 0 := by
  obtain ⟨cpu, loads, k, -, place⟩ := h.machine
  rw [memoryAll, place, Machine.mem_iterate]
  rw [Cpu.ofProgram_eq h.fits] at loads
  cases loads
  rfl

end

/-- Whatever a session is asked, it holds the program of the latest load that succeeded, which has
room in memory; so do all that it can load, and a load fails only if its source is wrong, and then
changes nothing. The machine is the plain one with that program after at most as many steps as were
asked for since the latest load or reset. -/
theorem requests_follow (rs : List Request) :
    let s := rs.foldl serve new
    (s.program = latest rs ∧ s.program.length ≤ Memory.space ∧
      s.memoryAll = latest rs ++ List.replicate (Memory.space - (latest rs).length) 0) ∧
    (∃ cpu, Cpu.ofProgram s.program = .ok cpu ∧ s.reset = ⟨⟨cpu, .endless⟩, s.program⟩ ∧
      ∃ k ≤ stepsSince 0 rs, s.machine = (fun m : Machine => m.step.2)^[k] ⟨cpu, .endless⟩) ∧
    ∀ source,
      (match Program.parse source with
        | .error e => s.loadText source = (.error (.program e), s)
        | .ok p => ∃ cpu, Cpu.ofProgram p.bytes = .ok cpu ∧
            s.loadText source = (.ok p.size, ⟨⟨cpu, .endless⟩, p.bytes⟩)) ∧
      (match assemble source with
        | .error e => s.loadAssembly source = (.error (.assembly e), s)
        | .ok bytes => ∃ cpu, Cpu.ofProgram bytes = .ok cpu ∧
            s.loadAssembly source = (.ok bytes.length, ⟨⟨cpu, .endless⟩, bytes⟩)) := by
  intro s
  have follows := follows_requests follows_new rs
  have holds : s.program = latest rs := follows.holds
  obtain ⟨cpu, loads, place⟩ := follows.machine
  have here : Cpu.ofProgram s.program = .ok cpu := by rwa [holds]
  refine ⟨⟨holds, ?_, memoryAll_of_follows follows⟩, ⟨cpu, here, reset_eq s here, place⟩, ?_⟩
  · rw [holds]
    exact follows.fits
  · intro source
    constructor
    · cases parsed : Program.parse source with
      | error e => simp only [loadText, parsed]
      | ok p =>
        obtain ⟨mem, fresh⟩ := Cpu.ofProgram_of_fits (size_parsed parsed)
        refine ⟨_, fresh, ?_⟩
        simp only [loadText, parsed]
        exact load_eq s fresh
    · cases made : assemble source with
      | error e => simp only [loadAssembly, made]
      | ok bytes =>
        obtain ⟨mem, fresh⟩ := Cpu.ofProgram_of_fits (Assembly.length_of_ok made)
        refine ⟨_, fresh, ?_⟩
        simp only [loadAssembly, made]
        exact load_eq s fresh

end Ls8.Session
