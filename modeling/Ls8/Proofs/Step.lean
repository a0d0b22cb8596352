import Ls8.Proofs.Disassembly.Rows
import Ls8.Proofs.Effect

/-! The ways in which a step can end. A failing step leaves the error status behind it and nothing
else, unless the line it prints does not fit or the counter cannot move on after the work. -/
namespace Ls8

inductive Fault.Early : Fault → Prop where
  | memory (e : MemoryError) : Early (.memory e)
  | decode (pc : UInt8) (e : DecodeError) : Early (.decode pc e)
  | divideByZero : Early .divideByZero
  | noRegister (i : UInt8) : Early (.register (.noRegister i))

theorem early_of_fetch {c : Cpu} {f : Fault} (h : c.fetch = .error f) : f.Early := by
  have cell : ∀ {a}, c.readAt a = .error f → f.Early := by
    intro a missing
    obtain ⟨e, -, rfl⟩ := mapError_eq_error.mp missing
    exact .memory e
  rcases bind_eq_error.mp h with missing | ⟨b, -, h⟩
  · exact cell missing
  · cases known : Opcode.ofByte? b with
    | none =>
      rw [known] at h
      cases h
      exact .decode _ _
    | some op =>
      rw [known] at h
      rcases bind_eq_error.mp h with truncated | ⟨rest, -, undecoded⟩
      · obtain ⟨a, -, missing⟩ := mapM_eq_error truncated
        exact cell missing
      · obtain ⟨e, -, rfl⟩ := mapError_eq_error.mp undecoded
        exact .decode _ e

theorem fault_of_read {r : Registers} {i : UInt8} {f : Fault} (h : r.read i = .error f) :
    8 ≤ i ∧ f = .register (.noRegister i) := by
  obtain ⟨e, missing, rfl⟩ := mapError_eq_error.mp h
  unfold Registers.get at missing
  split at missing
  · cases missing
  · next outside =>
    cases missing
    rw [Vector.getElem?_eq_none_iff] at outside
    exact ⟨UInt8.le_iff_toNat_le.mpr outside, rfl⟩

theorem fault_of_store {r : Registers} {i b : UInt8} {f : Fault} (h : r.store i b = .error f) :
    8 ≤ i ∧ f = .register (.noRegister i) := by
  obtain ⟨e, missing, rfl⟩ := mapError_eq_error.mp (map_eq_error.mp h)
  unfold Registers.set at missing
  split at missing
  · cases missing
  · next outside =>
    cases missing
    exact ⟨UInt8.le_iff_toNat_le.mpr (Nat.le_of_not_lt outside), rfl⟩

theorem fault_of_apply {op : BinaryOp} {x y : UInt8} {f : Fault} (h : op.apply x y = .error f) :
    f = .divideByZero := by
  cases op with
  | mod =>
    rw [BinaryOp.apply] at h
    split at h <;> cases h
    rfl
  | _ => cases h

theorem fault_of_effect {i : Instruction} {r : Registers} {f : Fault} (h : i.effect r = .error f) :
    (∃ x ∈ i.registers, 8 ≤ x ∧ f = .register (.noRegister x)) ∨ f = .divideByZero := by
  cases i with
  | halt => cases h
  | jump c reg =>
    cases taken : c.holds r.flags with
    | true =>
      simp only [Instruction.effect, taken] at h
      exact .inl ⟨reg, List.mem_cons_self, fault_of_read (map_eq_error.mp h)⟩
    | false =>
      simp only [Instruction.effect, taken] at h
      cases h
  | load reg v => exact .inl ⟨reg, List.mem_cons_self, fault_of_store h⟩
  | print reg => exact .inl ⟨reg, List.mem_cons_self, fault_of_read (map_eq_error.mp h)⟩
  | compare a b =>
    rcases bind_eq_error.mp h with missing | ⟨x, -, h⟩
    · exact .inl ⟨a, List.mem_cons_self, fault_of_read missing⟩
    · rcases bind_eq_error.mp h with missing | ⟨y, -, h⟩
      · exact .inl ⟨b, List.mem_cons_of_mem a List.mem_cons_self, fault_of_read missing⟩
      · cases h
  | complement reg =>
    rcases bind_eq_error.mp h with missing | ⟨x, -, h⟩
    · exact .inl ⟨reg, List.mem_cons_self, fault_of_read missing⟩
    · exact .inl ⟨reg, List.mem_cons_self, fault_of_store h⟩
  | binary op a b =>
    rcases bind_eq_error.mp h with missing | ⟨x, -, h⟩
    · exact .inl ⟨a, List.mem_cons_self, fault_of_read missing⟩
    · rcases bind_eq_error.mp h with missing | ⟨y, -, h⟩
      · exact .inl ⟨b, List.mem_cons_of_mem a List.mem_cons_self, fault_of_read missing⟩
      · rcases bind_eq_error.mp h with undefined | ⟨v, -, h⟩
        · exact .inr (fault_of_apply undefined)
        · exact .inl ⟨a, List.mem_cons_self, fault_of_store h⟩

theorem early_of_effect {i : Instruction} {r : Registers} {f : Fault}
    (h : i.effect r = .error f) : f.Early := by
  rcases fault_of_effect h with ⟨x, -, -, rfl⟩ | rfl
  · exact .noRegister x
  · exact .divideByZero

theorem set_of_store {r r' : Registers} {i b : UInt8} (h : r.store i b = .ok (.update r')) :
    r.set i b = .ok r' := by
  obtain ⟨changed, stored, same⟩ := map_eq_ok.mp h
  cases same
  exact mapError_eq_ok.mp stored

def Instruction.compares (r : Registers) : Instruction → Option (UInt8 × UInt8)
  | .compare a b =>
    match r.get a, r.get b with
    | .ok x, .ok y => some (x, y)
    | _, _ => none
  | _ => none

theorem read_eq_ok {r : Registers} {j v : UInt8} : r.read j = .ok v ↔ r.get j = .ok v :=
  mapError_eq_ok

/-- What becomes of the registers: a comparison sets the bits, and another instruction sets one
register at most. -/
theorem update_cases {i : Instruction} {r r' : Registers} (h : i.effect r = .ok (.update r')) :
    (∃ x y, i.compares r = some (x, y) ∧ r' = r.compare x y) ∨
      (i.compares r = none ∧ (r' = r ∨ ∃ j v, r.set j v = .ok r')) := by
  cases i with
  | halt => cases h
  | jump c reg =>
    cases taken : c.holds r.flags with
    | true =>
      simp only [Instruction.effect, taken] at h
      obtain ⟨target, -, other⟩ := map_eq_ok.mp h
      cases other
    | false =>
      simp only [Instruction.effect, taken] at h
      cases h
      exact .inr ⟨rfl, .inl rfl⟩
  | load reg v => exact .inr ⟨rfl, .inr ⟨reg, v, set_of_store h⟩⟩
  | print reg =>
    obtain ⟨v, -, other⟩ := map_eq_ok.mp h
    cases other
  | compare a b =>
    obtain ⟨x, left, h⟩ := bind_eq_ok.mp h
    obtain ⟨y, right, h⟩ := bind_eq_ok.mp h
    cases h
    refine .inl ⟨x, y, ?_, rfl⟩
    rw [Instruction.compares, read_eq_ok.mp left, read_eq_ok.mp right]
  | complement reg =>
    obtain ⟨x, -, h⟩ := bind_eq_ok.mp h
    exact .inr ⟨rfl, .inr ⟨reg, _, set_of_store h⟩⟩
  | binary op a b =>
    obtain ⟨x, -, h⟩ := bind_eq_ok.mp h
    obtain ⟨y, -, h⟩ := bind_eq_ok.mp h
    obtain ⟨v, -, h⟩ := bind_eq_ok.mp h
    exact .inr ⟨rfl, .inr ⟨a, v, set_of_store h⟩⟩

theorem kept_of_set {r r' : Registers} {i b : UInt8} (h : r.set i b = .ok r') :
    r'.pc = r.pc ∧ r'.flags = r.flags := by
  unfold Registers.set at h
  split at h
  · cases h
    exact ⟨rfl, rfl⟩
  · cases h

theorem pc_of_effect {i : Instruction} {r r' : Registers} (h : i.effect r = .ok (.update r')) :
    r'.pc = r.pc := by
  rcases update_cases h with ⟨x, y, -, rfl⟩ | ⟨-, rfl | ⟨j, v, changed⟩⟩
  · rfl
  · rfl
  · exact (kept_of_set changed).1

theorem stays_of_moves {i : Instruction} {r : Registers} {e : Effect} (h : i.effect r = .ok e)
    (moves : e.moves = true) : i ≠ .halt ∧ i.jumps r.flags = false := by
  constructor
  · rintro rfl
    cases h
    cases moves
  · cases i with
    | jump c reg =>
      cases taken : c.holds r.flags with
      | true =>
        simp only [Instruction.effect, taken] at h
        obtain ⟨target, -, rfl⟩ := map_eq_ok.mp h
        cases moves
      | false => exact taken
    | _ => rfl

namespace Machine

/-- What a step answers and leaves. -/
inductive Stepped (m : Machine) : Except Fault Instruction → Machine → Prop where
  | idle (stopped : m.cpu.isRunning = false) : Stepped m (.error (.notRunning m.cpu.status)) m
  | unread {f : Fault} (runs : m.cpu.isRunning = true) (fetched : m.cpu.fetch = .error f) :
      Stepped m (.error f) (m.setStatus .error)
  | unable {i : Instruction} {f : Fault} (runs : m.cpu.isRunning = true)
      (fetched : m.cpu.fetch = .ok i) (asked : i.effect m.cpu.regs = .error f) :
      Stepped m (.error f) (m.setStatus .error)
  | unprinted {i : Instruction} {v : UInt8} (runs : m.cpu.isRunning = true)
      (fetched : m.cpu.fetch = .ok i) (asked : i.effect m.cpu.regs = .ok (.print v))
      (full : m.takes (.print v) = false) :
      Stepped m (.error .output) ((m.settle (.print v)).setStatus .error)
  | atEnd {i : Instruction} {e : Effect} (runs : m.cpu.isRunning = true)
      (fetched : m.cpu.fetch = .ok i) (asked : i.effect m.cpu.regs = .ok e)
      (moves : e.moves = true) (taken : m.takes e = true)
      (past : 255 < m.cpu.regs.pc.toNat + i.width) :
      Stepped m (.error (.register (.pastEnd (m.cpu.regs.pc.toNat + i.width))))
        ((m.settle e).setStatus .error)
  | halted {i : Instruction} (runs : m.cpu.isRunning = true) (fetched : m.cpu.fetch = .ok i)
      (asked : i.effect m.cpu.regs = .ok .halt) : Stepped m (.ok i) ((m.setStatus .halted).count i)
  | jumped {i : Instruction} {target : UInt8} (runs : m.cpu.isRunning = true)
      (fetched : m.cpu.fetch = .ok i) (asked : i.effect m.cpu.regs = .ok (.goto target)) :
      Stepped m (.ok i) ((m.setRegs (m.cpu.regs.jump target)).count i)
  | moved {i : Instruction} {e : Effect} (runs : m.cpu.isRunning = true)
      (fetched : m.cpu.fetch = .ok i) (asked : i.effect m.cpu.regs = .ok e)
      (moves : e.moves = true) (taken : m.takes e = true)
      (room : m.cpu.regs.pc.toNat + i.width < 256) :
      Stepped m (.ok i) (((m.settle e).setRegs
        ((m.settle e).cpu.regs.jump (m.cpu.regs.pc.toNat + i.width).toUInt8)).count i)

theorem pc_settle {m : Machine} {i : Instruction} {e : Effect} (h : i.effect m.cpu.regs = .ok e) :
    (m.settle e).cpu.regs.pc = m.cpu.regs.pc := by
  cases e with
  | update r => exact pc_of_effect h
  | _ => rfl

theorem advance_inside {m : Machine} {width : Nat} (room : m.cpu.regs.pc.toNat + width < 256) :
    m.advance width =
      (.ok (), m.setRegs (m.cpu.regs.jump (m.cpu.regs.pc.toNat + width).toUInt8)) := by
  simp [advance, Registers.advance, room]

theorem advance_outside {m : Machine} {width : Nat}
    (past : 255 < m.cpu.regs.pc.toNat + width) :
    m.advance width = (.error (.register (.pastEnd (m.cpu.regs.pc.toNat + width))), m) := by
  have outside : ¬ m.cpu.regs.pc.toNat + width < 256 := by omega
  simp [advance, Registers.advance, outside]

theorem stepped (m : Machine) : Stepped m m.step.1 m.step.2 := by
  unfold step
  cases runs : m.cpu.isRunning with
  | false => exact .idle runs
  | true =>
    simp only [if_true]
    cases fetched : m.cpu.fetch with
    | error f => exact .unread runs fetched
    | ok i =>
      simp only [execute]
      cases asked : i.effect m.cpu.regs with
      | error f => exact .unable runs fetched asked
      | ok e =>
        cases moves : e.moves with
        | false =>
          cases e with
          | halt => exact .halted runs fetched asked
          | goto target => exact .jumped runs fetched asked
          | update r => cases moves
          | print v => cases moves
        | true =>
          -- Of the effects that are followed by a move, only a print can fail by itself.
          cases taken : m.takes e with
          | false =>
            cases e with
            | print v =>
              have full : m.out.fits (line v) = false := taken
              simp only [perform, full]
              exact .unprinted runs fetched asked taken
            | _ => cases taken
          | true =>
            -- The work has left the counter alone, so it moves on from where it was.
            have counter := pc_settle asked
            simp only [perform_of_takes m i.width moves taken]
            rcases Nat.lt_or_ge (m.cpu.regs.pc.toNat + i.width) 256 with room | past
            · rw [advance_inside (by rwa [counter]), counter]
              exact .moved runs fetched asked moves taken room
            · rw [advance_outside (by rwa [counter]), counter]
              exact .atEnd runs fetched asked moves taken past

theorem step_cases {m m' : Machine} {a : Except Fault Instruction} (h : m.step = (a, m')) :
    Stepped m a m' := by
  have ended := stepped m
  rwa [h] at ended

section

variable {m m' : Machine} {i : Instruction} {e : Effect} {f : Fault}

@[simp] theorem mem_settle : (m.settle e).cpu.mem = m.cpu.mem := by
  cases e <;> rfl

@[simp] theorem status_settle : (m.settle e).cpu.status = m.cpu.status := by
  cases e <;> rfl

@[simp] theorem cycles_settle : (m.settle e).cpu.cycles = m.cpu.cycles := by
  cases e <;> rfl

@[simp] theorem last_settle : (m.settle e).cpu.last = m.cpu.last := by
  cases e <;> rfl

theorem endless_settle (endless : m.out.room = none) : (m.settle e).out.room = none := by
  cases e with
  | print v => simp [settle, Channel.put, endless]
  | _ => exact endless

theorem endless_step (endless : m.out.room = none) : m.step.2.out.room = none := by
  have ended := stepped m
  generalize m.step.1 = a, m.step.2 = m' at ended ⊢
  cases ended with
  | unprinted | atEnd | moved => exact endless_settle endless
  | _ => exact endless

theorem mem_step (m : Machine) : m.step.2.cpu.mem = m.cpu.mem := by
  have ended := stepped m
  generalize m.step.1 = a, m.step.2 = m' at ended ⊢
  cases ended with
  | unprinted | atEnd | moved => exact mem_settle
  | _ => rfl

theorem mem_of_step {a : Except Fault Instruction} (h : m.step = (a, m')) :
    m'.cpu.mem = m.cpu.mem := by
  have same := mem_step m
  rwa [h] at same

theorem runs_of_step (h : m.step = (.ok i, m')) : m.cpu.isRunning = true := by
  cases step_cases h <;> assumption

theorem last_of_step (h : m.step = (.ok i, m')) : m'.cpu.last = some i := by
  cases step_cases h <;> rfl

theorem status_of_step (h : m.step = (.ok i, m')) : m'.cpu.status ≠ .error := by
  cases step_cases h with
  | halted => simp [count, setStatus]
  | jumped runs => simp [count, setRegs, m.cpu.isRunning_iff.mp runs]
  | moved runs => simp [count, setRegs, m.cpu.isRunning_iff.mp runs]

theorem halted_of_idle (idle : m.cpu.isRunning = false) (sound : m.cpu.status ≠ .error) :
    m.cpu.status = .halted := by
  cases status : m.cpu.status with
  | running => simp [Cpu.isRunning, status] at idle
  | halted => rfl
  | error => exact absurd status sound

/-- What even a failing step leaves as it was. -/
structure Kept (m m' : Machine) : Prop where
  mem : m'.cpu.mem = m.cpu.mem
  pc : m'.cpu.regs.pc = m.cpu.regs.pc
  cycles : m'.cpu.cycles = m.cpu.cycles
  last : m'.cpu.last = m.cpu.last

theorem kept_of_failed (h : Stepped m (.error f) m') : Kept m m' := by
  cases h with
  | idle | unread | unable | unprinted => exact ⟨rfl, rfl, rfl, rfl⟩
  | atEnd _ _ asked => exact ⟨mem_settle, pc_settle asked, cycles_settle, last_settle⟩

theorem idle_of_failed (stopped : ¬ m.cpu.isRunning = true) (h : Stepped m (.error f) m') :
    f = .notRunning m.cpu.status ∧ m' = m := by
  cases h with
  | idle => exact ⟨rfl, rfl⟩
  | unread runs | unable runs | unprinted runs | atEnd runs => exact absurd runs stopped

theorem error_of_failed (runs : m.cpu.isRunning = true) (h : Stepped m (.error f) m') :
    m'.cpu.status = .error := by
  cases h with
  | idle stopped =>
    rw [runs] at stopped
    cases stopped
  | _ => rfl

theorem stuck_of_failed (runs : m.cpu.isRunning = true) (h : Stepped m (.error f) m') :
    m'.cpu.isRunning = false := by
  rw [Cpu.isRunning, error_of_failed runs h]
  rfl

theorem bare_of_failed (runs : m.cpu.isRunning = true) (h : Stepped m (.error f) m')
    (not_output : f ≠ .output) (not_end : ∀ n, f ≠ .register (.pastEnd n)) :
    m' = m.setStatus .error := by
  cases h with
  | idle stopped =>
    rw [runs] at stopped
    cases stopped
  | unread | unable => rfl
  | unprinted => exact absurd rfl not_output
  | atEnd => exact absurd rfl (not_end _)

theorem printed_of_full {out : Channel} {s : List Char} (full : out.fits s = false) :
    ∃ k < s.length, (out.put s).printed = out.printed ++ String.ofList (s.take k) := by
  cases limit : out.room with
  | none => simp [Channel.fits, limit] at full
  | some room =>
    simp only [Channel.fits, limit, Option.all_some, decide_eq_false_iff_not, Nat.not_le] at full
    exact ⟨room, full, by simp [Channel.put, limit]⟩

theorem unprinted_of_failed (h : Stepped m (.error .output) m') :
    ∃ i v, m.cpu.fetch = .ok i ∧ i.effect m.cpu.regs = .ok (.print v) ∧
      m'.cpu = (m.setStatus .error).cpu ∧ ∃ k < (line v).length,
        m'.out.printed = m.out.printed ++ String.ofList ((line v).take k) := by
  cases h with
  | unread _ fetched => cases early_of_fetch fetched
  | unable _ _ asked => cases early_of_effect asked
  | unprinted _ fetched asked full => exact ⟨_, _, fetched, asked, rfl, printed_of_full full⟩

/-- The instruction at the counter does its work, and after it there is no next address. -/
structure Overruns (m : Machine) (i : Instruction) (e : Effect) : Prop where
  fetched : m.cpu.fetch = .ok i
  runs : i ≠ .halt
  stays : i.jumps m.cpu.regs.flags = false
  asked : i.effect m.cpu.regs = .ok e
  taken : m.takes e = true
  past : 255 < m.cpu.regs.pc.toNat + i.width

theorem overruns_of_failed {n : Nat} (h : Stepped m (.error (.register (.pastEnd n))) m') :
    ∃ i e, Overruns m i e ∧ n = m.cpu.regs.pc.toNat + i.width ∧
      m.cpu.isRunning = true ∧ m' = (m.settle e).setStatus .error := by
  cases h with
  | unread _ fetched => cases early_of_fetch fetched
  | unable _ _ asked => cases early_of_effect asked
  | atEnd runs fetched asked moves taken past =>
    have stays := stays_of_moves asked moves
    exact ⟨_, _, ⟨fetched, stays.1, stays.2, asked, taken, past⟩, rfl, runs, rfl⟩

theorem step_of_overruns (runs : m.cpu.isRunning = true) (h : Overruns m i e) :
    m.step = (.error (.register (.pastEnd (m.cpu.regs.pc.toNat + i.width))),
      (m.settle e).setStatus .error) := by
  have moves := moves_of_effect h.runs h.stays h.asked
  have past : 255 < (m.settle e).cpu.regs.pc.toNat + i.width := by
    rw [pc_settle h.asked]
    exact h.past
  simp only [step, runs, if_true, h.fetched, execute, h.asked,
    perform_of_takes m i.width moves h.taken, advance_outside past, pc_settle h.asked]

theorem step_of_unread (runs : m.cpu.isRunning = true) (h : m.cpu.fetch = .error f) :
    m.step = (.error f, m.setStatus .error) := by
  simp only [step, runs, if_true, h]

theorem step_of_unable (runs : m.cpu.isRunning = true) (fetched : m.cpu.fetch = .ok i)
    (asked : i.effect m.cpu.regs = .error f) : m.step = (.error f, m.setStatus .error) := by
  simp only [step, runs, if_true, fetched, execute, asked]

theorem step_of_moved (runs : m.cpu.isRunning = true) (fetched : m.cpu.fetch = .ok i)
    (asked : i.effect m.cpu.regs = .ok e) (moves : e.moves = true) (taken : m.takes e = true)
    (room : m.cpu.regs.pc.toNat + i.width < 256) :
    m.step = (.ok i, ((m.settle e).setRegs
      ((m.settle e).cpu.regs.jump (m.cpu.regs.pc.toNat + i.width).toUInt8)).count i) := by
  have inside : (m.settle e).cpu.regs.pc.toNat + i.width < 256 := by rwa [pc_settle asked]
  simp only [step, runs, if_true, fetched, execute, asked, perform_of_takes m i.width moves taken,
    advance_inside inside, pc_settle asked]

theorem step_of_halt (runs : m.cpu.isRunning = true) (fetched : m.cpu.fetch = .ok .halt) :
    m.step = (.ok .halt, (m.setStatus .halted).count .halt) := by
  simp only [step, runs, if_true, fetched, execute, Instruction.effect, perform]

theorem ne_cycleLimit_of_failed (h : Stepped m (.error f) m') (n : UInt64) :
    f ≠ .cycleLimit n := by
  rintro rfl
  cases h with
  | unread _ fetched => cases early_of_fetch fetched
  | unable _ _ asked => cases early_of_effect asked

end

/-- What a failing step leaves of the machine, and when it fails after the work is done. -/
theorem step_failure (m : Machine) :
    (∀ f m', m.step = (.error f, m') → Kept m m' ∧
      (m.cpu.status ≠ .running → f = .notRunning m.cpu.status ∧ m' = m) ∧
      (m.cpu.status = .running → m'.cpu.status = .error ∧
        (f = .output → ∃ i v, m.cpu.fetch = .ok i ∧ i.effect m.cpu.regs = .ok (.print v) ∧
          m'.cpu = (m.setStatus .error).cpu ∧ ∃ k < (line v).length,
            m'.out.printed = m.out.printed ++ String.ofList ((line v).take k)) ∧
        (∀ n, f = .register (.pastEnd n) →
          ∃ i e, Overruns m i e ∧ m' = (m.settle e).setStatus .error) ∧
        (f ≠ .output → (∀ n, f ≠ .register (.pastEnd n)) → m' = m.setStatus .error))) ∧
    (∀ n, m.step.1 = .error (.register (.pastEnd n)) ↔
      m.cpu.status = .running ∧ ∃ i e, Overruns m i e ∧ n = m.cpu.regs.pc.toNat + i.width) ∧
    (m.cpu.status = .running →
      (∀ f, m.cpu.fetch = .error f → m.step = (.error f, m.setStatus .error)) ∧
      ∀ i f, m.cpu.fetch = .ok i → i.effect m.cpu.regs = .error f →
        m.step = (.error f, m.setStatus .error)) := by
  simp only [← Cpu.isRunning_iff, ne_eq]
  refine ⟨fun f m' failed => ?_, fun n => ⟨fun failed => ?_, ?_⟩, fun runs => ?_⟩
  · have ended := step_cases failed
    refine ⟨kept_of_failed ended, fun stopped => idle_of_failed stopped ended, fun runs => ?_⟩
    refine ⟨error_of_failed runs ended, ?_, ?_, bare_of_failed runs ended⟩
    · rintro rfl
      exact unprinted_of_failed ended
    · rintro n rfl
      obtain ⟨i, e, overrun, -, -, left⟩ := overruns_of_failed ended
      exact ⟨i, e, overrun, left⟩
  · have ended := stepped m
    rw [failed] at ended
    obtain ⟨i, e, overrun, total, runs, -⟩ := overruns_of_failed ended
    exact ⟨runs, i, e, overrun, total⟩
  · rintro ⟨runs, i, e, overrun, rfl⟩
    rw [step_of_overruns runs overrun]
  · exact ⟨fun f => step_of_unread runs, fun i f => step_of_unable runs⟩

end Machine
end Ls8
