import Ls8.Proofs.Runs

/-! A machine that comes back to where it was. What a step does depends on the registers, the memory
and the status alone, and no step changes the memory, so that the machine goes round for good. -/
namespace Ls8.Machine

/-- Machines that differ in nothing that a step looks at, with channels that take everything. -/
structure Alike (m n : Machine) : Prop where
  regs : n.cpu.regs = m.cpu.regs
  mem : n.cpu.mem = m.cpu.mem
  status : n.cpu.status = m.cpu.status
  endless : m.out.room = none
  endless' : n.out.room = none

def PrintAlike (m n m' n' : Machine) : Prop :=
  ∃ text, m'.out.printed = m.out.printed ++ text ∧ n'.out.printed = n.out.printed ++ text

/-- Two machines stay alike on their ways, and print the same. -/
structure Together (m n m' n' : Machine) : Prop where
  alike : Alike m' n'
  printed : PrintAlike m n m' n'

section

variable {m n m' n' m'' n'' a b c d : Machine} {i : Instruction} {k p r : Nat}

theorem Alike.refl (endless : m.out.room = none) : Alike m m :=
  ⟨rfl, rfl, rfl, endless, endless⟩

theorem PrintAlike.silent (same : m'.out = m.out) (same' : n'.out = n.out) :
    PrintAlike m n m' n' := by
  refine ⟨"", ?_, ?_⟩
  · rw [same, String.append_empty]
  · rw [same', String.append_empty]

theorem PrintAlike.trans (first : PrintAlike m n m' n') (rest : PrintAlike m' n' m'' n'') :
    PrintAlike m n m'' n'' := by
  obtain ⟨s, front, front'⟩ := first
  obtain ⟨t, back, back'⟩ := rest
  refine ⟨s ++ t, ?_, ?_⟩
  · rw [back, front, String.append_assoc]
  · rw [back', front', String.append_assoc]

theorem Alike.silent (h : Alike m' n') (same : m'.out = m.out) (same' : n'.out = n.out) :
    Together m n m' n' :=
  ⟨h, .silent same same'⟩

theorem Together.trans (first : Together m n m' n') (rest : Together m' n' m'' n'') :
    Together m n m'' n'' :=
  ⟨rest.alike, first.printed.trans rest.printed⟩

theorem Alike.setStatus (h : Alike m n) (s : Status) :
    Together m n (m.setStatus s) (n.setStatus s) :=
  Alike.silent ⟨h.regs, h.mem, rfl, h.endless, h.endless'⟩ rfl rfl

theorem Alike.setRegs (h : Alike m n) (r : Registers) :
    Together m n (m.setRegs r) (n.setRegs r) :=
  Alike.silent ⟨rfl, h.mem, h.status, h.endless, h.endless'⟩ rfl rfl

theorem Alike.count (h : Alike m n) (i : Instruction) : Together m n (m.count i) (n.count i) :=
  Alike.silent ⟨h.regs, h.mem, h.status, h.endless, h.endless'⟩ rfl rfl

theorem Alike.put (h : Alike m n) (s : List Char) :
    Together m n { m with out := m.out.put s } { n with out := n.out.put s } := by
  have room : ∀ {out : Channel}, out.room = none → (out.put s).room = none := by
    intro out endless
    simp [Channel.put, endless]
  refine ⟨⟨h.regs, h.mem, h.status, room h.endless, room h.endless'⟩, String.ofList s, ?_, ?_⟩
  · simp [Channel.put, h.endless]
  · simp [Channel.put, h.endless']

theorem fetch_alike (h : Alike m n) : n.cpu.fetch = m.cpu.fetch := by
  have cells : n.cpu.readAt = m.cpu.readAt := by
    funext a
    rw [Cpu.readAt, Cpu.readAt, h.mem]
  have operands : n.cpu.readOperands = m.cpu.readOperands := by
    funext count
    rw [Cpu.readOperands, Cpu.readOperands, h.regs, cells]
  rw [Cpu.fetch, Cpu.fetch, h.regs, cells, operands]

theorem advance_alike (h : Alike m n) (width : Nat) :
    (n.advance width).1 = (m.advance width).1 ∧
      Together m n (m.advance width).2 (n.advance width).2 := by
  unfold advance
  rw [h.regs]
  cases m.cpu.regs.advance width with
  | error e => exact ⟨rfl, h.silent rfl rfl⟩
  | ok r => exact ⟨rfl, h.setRegs r⟩

theorem perform_alike (h : Alike m n) (width : Nat) (e : Effect) :
    (n.perform width e).1 = (m.perform width e).1 ∧
      Together m n (m.perform width e).2 (n.perform width e).2 := by
  cases e with
  | halt => exact ⟨rfl, h.setStatus .halted⟩
  | goto target =>
    simp only [perform, h.regs]
    exact ⟨trivial, h.setRegs _⟩
  | update r =>
    have work := h.setRegs r
    have moved := advance_alike work.alike width
    exact ⟨moved.1, work.trans moved.2⟩
  | print v =>
    have work := h.put (line v)
    have moved := advance_alike work.alike width
    have fits : ∀ {out : Channel}, out.room = none → out.fits (line v) = true := by
      intro out endless
      simp [Channel.fits, endless]
    simp only [perform, fits h.endless, fits h.endless', if_true]
    exact ⟨moved.1, work.trans moved.2⟩

theorem execute_alike (h : Alike m n) (i : Instruction) :
    (n.execute i).1 = (m.execute i).1 ∧ Together m n (m.execute i).2 (n.execute i).2 := by
  unfold execute
  rw [h.regs]
  cases i.effect m.cpu.regs with
  | error f => exact ⟨rfl, h.silent rfl rfl⟩
  | ok e => exact perform_alike h i.width e

/-- Neither the count nor the last instruction nor what has been printed makes a difference. -/
theorem step_alike (h : Alike m n) :
    n.step.1 = m.step.1 ∧ Together m n m.step.2 n.step.2 := by
  have runs : n.cpu.isRunning = m.cpu.isRunning := by rw [Cpu.isRunning, Cpu.isRunning, h.status]
  unfold step
  rw [runs, fetch_alike h]
  cases m.cpu.isRunning with
  | false =>
    rw [h.status]
    exact ⟨rfl, h.silent rfl rfl⟩
  | true =>
    simp only [if_true]
    cases m.cpu.fetch with
    | error f => exact ⟨rfl, h.setStatus .error⟩
    | ok i =>
      obtain ⟨same, work⟩ := execute_alike h i
      rcases done : m.execute i with ⟨answer, m'⟩
      rcases done' : n.execute i with ⟨answer', n'⟩
      rw [done, done'] at same work
      cases same
      simp only [done, done']
      cases answer with
      | error f => exact ⟨rfl, work.trans (work.alike.setStatus .error)⟩
      | ok u => exact ⟨rfl, work.trans (work.alike.count i)⟩

theorem succeeds_alike (h : Alike m n) (made : Succeeds k m m') :
    ∃ n', Succeeds k n n' ∧ Together m n m' n' := by
  induction made generalizing n with
  | nil m => exact ⟨n, .nil n, h.silent rfl rfl⟩
  | cons first rest ih =>
    obtain ⟨same, work⟩ := step_alike h
    rw [first] at same work
    obtain ⟨n', made', later⟩ := ih work.alike
    have second : n.step = (.ok _, n.step.2) := Prod.ext same rfl
    exact ⟨n', .cons second made', work.trans later⟩

theorem printed_of_succeeds (endless : m.out.room = none) (made : Succeeds k m m') :
    m'.out.room = none ∧ ∃ text, m'.out.printed = m.out.printed ++ text := by
  obtain ⟨n', made', together⟩ := succeeds_alike (.refl endless) made
  obtain ⟨text, printed, -⟩ := together.printed
  exact ⟨together.alike.endless, text, printed⟩

theorem mem_of_succeeds (made : Succeeds k m m') : m'.cpu.mem = m.cpu.mem := by
  induction made with
  | nil => rfl
  | cons first _ ih => exact ih.trans (mem_of_step first)

def copies (k : Nat) (text : String) : String := String.join (List.replicate k text)

theorem copies_succ (k : Nat) (text : String) : copies (k + 1) text = text ++ copies k text := by
  rw [copies, List.replicate_succ, String.join_cons]
  rfl

theorem rounds (h : Alike a b) (made : Succeeds p a b) {period : String}
    (printed : b.out.printed = a.out.printed ++ period) (k : Nat) :
    ∃ c, Succeeds (k * p) a c ∧ Alike a c ∧ c.out.printed = a.out.printed ++ copies k period := by
  induction k with
  | zero =>
    rw [Nat.zero_mul]
    exact ⟨a, .nil a, .refl h.endless, (String.append_empty).symm⟩
  | succ k ih =>
    -- The first round ends at `b`, and from there the rounds are made that were made from `a`.
    obtain ⟨c, rest, back, text⟩ := ih
    obtain ⟨d, rest', later⟩ := succeeds_alike h rest
    obtain ⟨s, text', text''⟩ := later.printed
    have same : s = copies k period := by
      rw [text] at text'
      exact (String.append_right_inj _).mp text'.symm
    refine ⟨d, ?_, ?_, ?_⟩
    · rw [Nat.succ_mul, Nat.add_comm]
      exact made.append rest'
    · exact ⟨later.alike.regs.trans back.regs, later.alike.mem.trans back.mem,
        later.alike.status.trans back.status, h.endless, later.alike.endless'⟩
    · rw [text'', printed, same, copies_succ, String.append_assoc]

/-- After `k` rounds more the machine does as it did, and has printed `k` periods more. -/
theorem repeats (h : Alike a b) (made : Succeeds p a b) {period : String}
    (printed : b.out.printed = a.out.printed ++ period) (before : Succeeds r a c)
    (after : Succeeds (k * p + r) a d) :
    d.cpu.regs = c.cpu.regs ∧ ∃ rest, c.out.printed = a.out.printed ++ rest ∧
      d.out.printed = a.out.printed ++ copies k period ++ rest := by
  obtain ⟨b', whole, back, text⟩ := rounds h made printed k
  obtain ⟨d', later, together⟩ := succeeds_alike back before
  obtain rfl := after.unique (whole.append later)
  obtain ⟨rest, printed', printed''⟩ := together.printed
  refine ⟨together.alike.regs, rest, printed', ?_⟩
  rw [printed'', text]

theorem runs_before (made : Succeeds k m m') (runs : m'.cpu.isRunning = true) :
    m.cpu.isRunning = true := by
  cases made with
  | nil => exact runs
  | cons first => exact runs_of_step first

def Endless (m : Machine) : Prop := ∀ n, ∃ m', Succeeds n m m' ∧ m'.cpu.isRunning = true

theorem endless_of_alike (h : Alike a b) (made : Succeeds p a b) (moves : 0 < p) : a.Endless := by
  intro n
  -- With one round more than steps are asked for, a step follows the last of them.
  obtain ⟨-, period, printed⟩ := printed_of_succeeds h.endless made
  obtain ⟨c, whole, -⟩ := rounds h made printed (n + 1)
  have enough : n + 1 ≤ (n + 1) * p := Nat.le_mul_of_pos_right _ moves
  obtain ⟨more, count⟩ := Nat.exists_eq_add_of_le enough
  rw [count, Nat.add_assoc, Nat.add_comm 1] at whole
  obtain ⟨c', front, back⟩ := whole.split
  exact ⟨c', front, back.runs⟩

theorem Endless.before (made : Succeeds k m a) (h : a.Endless) : m.Endless := by
  intro n
  obtain ⟨c, later, runs⟩ := h n
  have whole := made.append later
  rw [Nat.add_comm] at whole
  obtain ⟨m', front, back⟩ := whole.split
  exact ⟨m', front, runs_before back runs⟩

theorem Endless.run (h : m.Endless) : m.run = none := by
  obtain ⟨m', made, runs⟩ := h (UInt64.size - 1)
  rw [Machine.run, (Stepping.cutOff made runs).steps_eq]

theorem Endless.runLimited (h : m.Endless) {most : UInt64}
    (room : m.cpu.cycles.toNat + most.toNat < UInt64.size) :
    ∃ m', Succeeds most.toNat m m' ∧ m'.cpu.status = .running ∧
      m.runLimited most = (.ok most, m') := by
  obtain ⟨m', made, runs⟩ := h most.toNat
  refine ⟨m', made, m'.cpu.isRunning_iff.mp runs, ?_⟩
  simp [runLimited_of_stepping room (.cutOff made runs), Ending.answer]

theorem alike_of_regs (endless : m.out.room = none) (made : Succeeds k m a)
    (made' : Succeeds p m b) (runs : a.cpu.status = .running) (runs' : b.cpu.status = .running)
    (regs : b.cpu.regs = a.cpu.regs) : Alike a b := by
  refine ⟨regs, ?_, runs'.trans runs.symm, ?_, ?_⟩
  · rw [mem_of_succeeds made, mem_of_succeeds made']
  · exact (printed_of_succeeds endless made).1
  · exact (printed_of_succeeds endless made').1

theorem mem_calls (calls : List Call) (done : calls.foldlM call m = some m') :
    m'.cpu.mem = m.cpu.mem := by
  induction calls generalizing m with
  | nil =>
    cases done
    rfl
  | cons first calls ih =>
    obtain ⟨next, made, rest⟩ := Option.bind_eq_some_iff.mp done
    exact (ih rest).trans (mem_call made)

end

/-- Nothing that a machine is made to do changes its memory. A machine that runs and has registers it
had before never halts and never fails: every limited run uses its limit up, and what was printed
between the two times is printed again in each round. -/
theorem runs_recur (m : Machine) (endless : m.out.room = none) :
    (∀ (calls : List Call) m', calls.foldlM call m = some m' → m'.cpu.mem = m.cpu.mem) ∧
    ∀ i j a b, i < j → Succeeds i m a → Succeeds j m b →
      a.cpu.status = .running → b.cpu.status = .running → b.cpu.regs = a.cpu.regs →
      (∀ n, ∃ m', Succeeds n m m' ∧ m'.cpu.status = .running) ∧ m.run = none ∧
      (∀ most : UInt64, m.cpu.cycles.toNat + most.toNat < UInt64.size →
        ∃ m', Succeeds most.toNat m m' ∧ m'.cpu.status = .running ∧
          m.runLimited most = (.ok most, m')) ∧
      ∃ period, b.out.printed = a.out.printed ++ period ∧
        ∀ k n c d, Succeeds (i + n) m c → Succeeds (i + (k * (j - i) + n)) m d →
          d.cpu.regs = c.cpu.regs ∧ ∃ rest, c.out.printed = a.out.printed ++ rest ∧
            d.out.printed = a.out.printed ++ copies k period ++ rest := by
  refine ⟨fun calls m' => mem_calls calls, ?_⟩
  intro i j a b later made made' runs runs' regs
  have same := alike_of_regs endless made made' runs runs' regs
  obtain ⟨p, rfl⟩ := Nat.exists_eq_add_of_lt later
  -- The way from `m` to `b` leads through `a`, and so does every way of `i` steps or more.
  have past : ∀ {n d}, Succeeds (i + n) m d → Succeeds n a d := by
    intro n d whole
    obtain ⟨a', front, back⟩ := whole.split
    rwa [front.unique made] at back
  rw [Nat.add_assoc] at made'
  have round := past made'
  have forever := (endless_of_alike same round (Nat.succ_pos p)).before made
  refine ⟨?_, forever.run, fun most => forever.runLimited, ?_⟩
  · intro n
    obtain ⟨m', steps, goes⟩ := forever n
    exact ⟨m', steps, m'.cpu.isRunning_iff.mp goes⟩
  · obtain ⟨-, period, printed⟩ := printed_of_succeeds same.endless round
    refine ⟨period, printed, ?_⟩
    intro k n c d before after
    rw [Nat.add_assoc, Nat.add_sub_cancel_left] at after
    exact repeats same round printed (past before) (past after)

/-- `LDI R1,3`, then round and round between `PRN R0` and `JMP R1`. -/
def treadmill : Machine :=
  ⟨{ Cpu.new with mem := ⟨#[0x82, 1, 3, 0x47, 0, 0x54, 1]⟩ }, .endless⟩

theorem runs_recur_treadmill :
    ∃ a b, Succeeds 1 treadmill a ∧ Succeeds 3 treadmill b ∧
      b.cpu.regs = a.cpu.regs ∧ b.out.printed = a.out.printed ++ "0\n" ∧ treadmill.run = none ∧
        ∃ m, treadmill.runLimited 1000000 = (.ok 1000000, m) ∧ m.cpu.status = .running := by
  let a := treadmill.step.2
  let b := a.step.2.step.2
  have first : treadmill.step = (.ok (.load 1 3), a) := by decide +kernel
  have second : a.step = (.ok (.print 0), a.step.2) := by decide +kernel
  have third : a.step.2.step = (.ok (.jump .always 1), b) := by decide +kernel
  have made : Succeeds 1 treadmill a := .cons first (.nil a)
  have made' : Succeeds 3 treadmill b := made.append (.cons second (.cons third (.nil b)))
  have regs : b.cpu.regs = a.cpu.regs := by decide +kernel
  obtain ⟨-, loops⟩ := runs_recur treadmill rfl
  obtain ⟨-, endless, limited, -⟩ := loops 1 3 a b (by decide) made made' (by decide +kernel)
    (by decide +kernel) regs
  obtain ⟨m, -, runs, used⟩ := limited 1000000 (by decide)
  exact ⟨a, b, made, made', regs, by decide +kernel, endless, m, used, runs⟩

end Ls8.Machine
