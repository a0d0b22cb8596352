import Ls8.Proofs.Step
import Ls8.Proofs.Numbers

/-! The byte machine and the machine in natural numbers in lock-step: every step of the one is the
step of the other, in its answer and in all of its state. -/
namespace Ls8

open Instruction (decode_byte)
open Numbers (State)

def Instruction.word (i : Instruction) : List Nat := i.encode.map UInt8.toNat

namespace Machine

def inNumbers (m : Machine) : State where
  memory := m.cpu.mem.bytes.map UInt8.toNat
  general := m.cpu.regs.general.toList.map UInt8.toNat
  pc := m.cpu.regs.pc.toNat
  equal := m.cpu.regs.flags.equal
  greater := m.cpu.regs.flags.greater
  less := m.cpu.regs.flags.less
  status := m.cpu.status
  cycles := m.cpu.cycles.toNat
  last := m.cpu.last.map Instruction.word
  printed := m.out.printed

theorem cell_inNumbers (m : Machine) (a : Nat) :
    m.inNumbers.cell a = (m.cpu.readAt a).map UInt8.toNat := by
  simp only [State.cell, inNumbers, Memory.bytes, List.getElem?_map, Array.getElem?_toList,
    Cpu.readAt, Memory.read]
  cases m.cpu.mem.cells[a]? <;> rfl

theorem mem_opcodes {b : UInt8} : b.toNat ∈ Numbers.opcodes ↔ ∃ op, Opcode.ofByte? b = some op := by
  have table : Numbers.opcodes = Opcode.all.map fun op => op.byte.toNat := by decide
  rw [table, List.mem_map]
  constructor
  · rintro ⟨op, -, same⟩
    exact ⟨op, UInt8.toNat_inj.mp same ▸ Opcode.ofByte?_byte op⟩
  · rintro ⟨op, known⟩
    exact ⟨op, by cases op <;> decide, congrArg UInt8.toNat (Opcode.byte_of_ofByte? known)⟩

theorem word_ofOpcode (x y : UInt8) (op : Opcode) :
    (Instruction.ofOpcode x y op).word =
      op.byte.toNat :: [x.toNat, y.toNat].take op.operandCount := by
  cases op <;> rfl

theorem announced_cases (op : Opcode) :
    (op.operandCount = 0 ∧ op.byte.toNat >>> 6 = 0) ∨
    (op.operandCount = 1 ∧ op.byte.toNat >>> 6 = 1) ∨
    (op.operandCount = 2 ∧ op.byte.toNat >>> 6 = 2) := by
  cases op <;> decide

theorem fetch_inNumbers (m : Machine) : m.inNumbers.fetch = m.cpu.fetch.map Instruction.word := by
  have counter : m.inNumbers.pc = m.cpu.regs.pc.toNat := rfl
  simp only [State.fetch, Cpu.fetch, cell_inNumbers, counter]
  cases m.cpu.readAt m.cpu.regs.pc.toNat with
  | error f => rfl
  | ok b =>
    cases known : Opcode.ofByte? b with
    | none =>
      have unlisted : b.toNat ∉ Numbers.opcodes := by simp [mem_opcodes, known]
      simp [bind, Except.bind, Except.map, unlisted, known]
    | some op =>
      have listed : b.toNat ∈ Numbers.opcodes := mem_opcodes.mpr ⟨op, known⟩
      obtain rfl := Opcode.byte_of_ofByte? known
      simp only [bind, Except.bind, Except.map, listed, known, if_true, Cpu.readOperands]
      rcases announced_cases op with ⟨count, high⟩ | ⟨count, high⟩ | ⟨count, high⟩
      · have enough : op.operandCount ≤ ([] : List UInt8).length := by simp [count]
        simp [count, high, decode_byte enough, word_ofOpcode, Except.mapError, pure, Except.pure]
      · cases first : m.cpu.readAt (m.cpu.regs.pc.toNat + 1) with
        | error f => simp [count, high, first, bind, Except.bind]
        | ok x =>
          have enough : op.operandCount ≤ [x].length := by simp [count]
          simp [count, high, first, decode_byte enough, word_ofOpcode, Except.mapError, bind,
            Except.bind, pure, Except.pure]
      · cases first : m.cpu.readAt (m.cpu.regs.pc.toNat + 1) with
        | error f => simp [count, high, first, List.range'_succ, bind, Except.bind]
        | ok x =>
          cases second : m.cpu.readAt (m.cpu.regs.pc.toNat + 2) with
          | error f =>
            simp [count, high, first, second, List.range'_succ, bind, Except.bind]
          | ok y =>
            have enough : op.operandCount ≤ [x, y].length := by simp [count]
            simp [count, high, first, second, decode_byte enough, word_ofOpcode, List.range'_succ,
              Except.mapError, bind, Except.bind, pure, Except.pure]

theorem register_inNumbers (m : Machine) (i : UInt8) :
    m.inNumbers.register i.toNat = (m.cpu.regs.read i).map UInt8.toNat := by
  simp only [State.register, inNumbers, List.getElem?_map, Vector.getElem?_toList, Registers.read,
    Registers.get]
  cases m.cpu.regs.general[i.toNat]? with
  | none => simp [Except.map, Except.mapError]
  | some b => rfl

theorem put_inNumbers (m : Machine) (i b : UInt8) :
    m.inNumbers.put i.toNat b.toNat =
      ((m.cpu.regs.set i b).mapError .register).map fun r => (m.setRegs r).inNumbers := by
  unfold State.put Registers.set
  split
  · simp [inNumbers, setRegs, Except.map, Except.mapError, Vector.toList_setIfInBounds]
  · simp [Except.map, Except.mapError]

theorem shiftLeft_toNat (x y : UInt8) :
    (if y < 8 then x <<< y else 0 : UInt8).toNat = x.toNat * 2 ^ y.toNat % 256 := by
  split
  · next small =>
    have below : y.toNat < 8 := UInt8.lt_iff_toNat_lt.mp small
    rw [UInt8.toNat_shiftLeft, Nat.mod_eq_of_lt below, Nat.shiftLeft_eq]
  · next large =>
    have above : 8 ≤ y.toNat := Nat.le_of_not_lt fun h => large (UInt8.lt_iff_toNat_lt.mpr h)
    obtain ⟨k, e⟩ := Nat.exists_eq_add_of_le above
    have whole : x.toNat * 2 ^ y.toNat = 256 * (x.toNat * 2 ^ k) := by
      rw [e, Nat.pow_add, Nat.mul_left_comm]
    rw [whole, Nat.mul_mod_right]
    rfl

theorem shiftRight_toNat (x y : UInt8) :
    (if y < 8 then x >>> y else 0 : UInt8).toNat = x.toNat / 2 ^ y.toNat := by
  split
  · next small =>
    have below : y.toNat < 8 := UInt8.lt_iff_toNat_lt.mp small
    rw [UInt8.toNat_shiftRight, Nat.mod_eq_of_lt below, Nat.shiftRight_eq_div_pow]
  · next large =>
    have above : 8 ≤ y.toNat := Nat.le_of_not_lt fun h => large (UInt8.lt_iff_toNat_lt.mpr h)
    have power : 2 ^ 8 ≤ 2 ^ y.toNat := Nat.pow_le_pow_right (by decide) above
    rw [Nat.div_eq_of_lt (Nat.lt_of_lt_of_le x.toNat_lt power)]
    rfl

theorem advance_inNumbers (m : Machine) (width : Nat) :
    m.inNumbers.advance width = ((m.advance width).1, (m.advance width).2.inNumbers) := by
  have counter : m.inNumbers.pc = m.cpu.regs.pc.toNat := rfl
  simp only [State.advance, advance, Registers.advance, counter]
  by_cases inside : m.cpu.regs.pc.toNat + width < 256
  · have stays : ¬ 255 < m.cpu.regs.pc.toNat + width := by omega
    simp [inside, stays, inNumbers, setRegs, Registers.jump, Nat.mod_eq_of_lt inside]
  · have leaves : 255 < m.cpu.regs.pc.toNat + width := by omega
    simp [inside, leaves]

theorem store_inNumbers (m : Machine) (i b : UInt8) :
    m.inNumbers.put i.toNat b.toNat =
      (m.cpu.regs.store i b).map fun e => (m.settle e).inNumbers := by
  rw [put_inNumbers]
  unfold Registers.store
  cases m.cpu.regs.set i b <;> rfl

theorem binary_inNumbers (m : Machine) (op : BinaryOp) (a b : UInt8)
    {f : Nat → Nat → Except Fault Nat}
    (same : ∀ x y : UInt8, f x.toNat y.toNat = (op.apply x y).map UInt8.toNat) :
    m.inNumbers.combine a.toNat b.toNat f =
      ((Instruction.binary op a b).effect m.cpu.regs).map fun e => (m.settle e).inNumbers := by
  simp only [State.combine, Instruction.effect, register_inNumbers]
  cases m.cpu.regs.read a with
  | error e => rfl
  | ok x =>
    cases m.cpu.regs.read b with
    | error e => rfl
    | ok y =>
      have value := same x y
      cases result : op.apply x y with
      | error e => simp [bind, Except.bind, Except.map, value, result]
      | ok v => simpa [bind, Except.bind, Except.map, value, result] using store_inNumbers m a v

theorem modulo_inNumbers (x y : UInt8) :
    (if y.toNat = 0 then .error .divideByZero else .ok (x.toNat % y.toNat) : Except Fault Nat) =
      (BinaryOp.mod.apply x y).map UInt8.toNat := by
  by_cases zero : y = 0
  · simp [BinaryOp.apply, zero, Except.map]
  · have positive : y.toNat ≠ 0 := fun h => zero (UInt8.toNat_inj.mp h)
    simp [BinaryOp.apply, zero, positive, Except.map]

theorem ofList_line (v : UInt8) : String.ofList (line v) = toString v.toNat ++ "\n" := by
  simp [line, Text.decimal, String.ofList_append]
  rfl

theorem print_inNumbers (m : Machine) (reg : UInt8) (endless : m.out.room = none) :
    m.inNumbers.print reg.toNat =
      ((Instruction.print reg).effect m.cpu.regs).map fun e => (m.settle e).inNumbers := by
  simp only [State.print, Instruction.effect, register_inNumbers]
  cases m.cpu.regs.read reg with
  | error e => rfl
  | ok v =>
    simp [bind, Except.bind, pure, Except.pure, Except.map, settle, inNumbers, Channel.put, endless,
      ofList_line]

theorem compare_inNumbers (m : Machine) (a b : UInt8) :
    m.inNumbers.compare a.toNat b.toNat =
      ((Instruction.compare a b).effect m.cpu.regs).map fun e => (m.settle e).inNumbers := by
  simp only [State.compare, Instruction.effect, register_inNumbers]
  cases m.cpu.regs.read a with
  | error e => rfl
  | ok x =>
    cases m.cpu.regs.read b with
    | error e => rfl
    | ok y =>
      have bit : (x == y) = decide (x.toNat = y.toNat) := by
        by_cases h : x = y <;> simp [h, UInt8.toNat_inj]
      simp [bind, Except.bind, pure, Except.pure, Except.map, settle, inNumbers, setRegs,
        Registers.compare, Flags.compare, UInt8.lt_iff_toNat_lt, bit]

theorem complement_inNumbers (m : Machine) (reg : UInt8) :
    m.inNumbers.complement reg.toNat =
      ((Instruction.complement reg).effect m.cpu.regs).map fun e => (m.settle e).inNumbers := by
  simp only [State.complement, Instruction.effect, register_inNumbers]
  cases m.cpu.regs.read reg with
  | error e => rfl
  | ok x =>
    have value : 255 - x.toNat = (~~~x).toNat := (UInt8.toNat_not x).symm
    simp only [bind, Except.bind, Except.map, value]
    exact store_inNumbers m reg (~~~x)

theorem jumps_inNumbers (m : Machine) (i : Instruction) :
    m.inNumbers.jumps i.opcode.byte.toNat = i.jumps m.cpu.regs.flags := by
  cases i with
  | jump c reg =>
    cases c with
    | always => rfl
    | equal =>
      change (false || (true && m.inNumbers.equal) || (false && !m.inNumbers.equal)) = _
      simp [Instruction.jumps, Condition.holds, inNumbers]
    | different =>
      change (false || (false && m.inNumbers.equal) || (true && !m.inNumbers.equal)) = _
      simp [Instruction.jumps, Condition.holds, inNumbers]
  | binary op a b => cases op <;> rfl
  | _ => rfl

theorem change_inNumbers (m : Machine) {i : Instruction} (endless : m.out.room = none)
    (runs : i ≠ .halt) (goes : i.jumps m.cpu.regs.flags = false) :
    m.inNumbers.change i.opcode.byte.toNat (i.word.getD 1 0) (i.word.getD 2 0) =
      (i.effect m.cpu.regs).map fun e => (m.settle e).inNumbers := by
  cases i with
  | halt => exact absurd rfl runs
  | jump c reg =>
    have untaken : c.holds m.cpu.regs.flags = false := goes
    simp only [Instruction.effect, untaken]
    cases c <;> rfl
  | load reg v => exact store_inNumbers m reg v
  | print reg => exact print_inNumbers m reg endless
  | compare a b => exact compare_inNumbers m a b
  | complement reg => exact complement_inNumbers m reg
  | binary op a b =>
    cases op with
    | and => exact binary_inNumbers m .and a b fun x y => congrArg Except.ok (UInt8.toNat_and x y).symm
    | or => exact binary_inNumbers m .or a b fun x y => congrArg Except.ok (UInt8.toNat_or x y).symm
    | xor => exact binary_inNumbers m .xor a b fun x y => congrArg Except.ok (UInt8.toNat_xor x y).symm
    | shl => exact binary_inNumbers m .shl a b fun x y => congrArg Except.ok (shiftLeft_toNat x y).symm
    | shr => exact binary_inNumbers m .shr a b fun x y => congrArg Except.ok (shiftRight_toNat x y).symm
    | mod => exact binary_inNumbers m .mod a b modulo_inNumbers

theorem byte_ne_one {i : Instruction} (runs : i ≠ .halt) : i.opcode.byte.toNat ≠ 1 := by
  have table : ∀ op : Opcode, op.byte.toNat = 1 → op = .hlt := by
    intro op
    cases op <;> decide
  intro one
  have halts := table i.opcode one
  cases i with
  | halt => exact runs rfl
  | jump c reg => cases c <;> cases halts
  | binary op a b => cases op <;> cases halts
  | _ => cases halts

theorem perform_inNumbers (m : Machine) (i : Instruction) (endless : m.out.room = none) :
    m.inNumbers.perform (i.word.getD 0 0) (i.word.getD 1 0) (i.word.getD 2 0) =
      ((m.execute i).1, (m.execute i).2.inNumbers) := by
  have opcode : i.word.getD 0 0 = i.opcode.byte.toNat := rfl
  have width : 1 + i.opcode.byte.toNat >>> 6 = i.width := rfl
  rw [opcode]
  by_cases runs : i = .halt
  · subst runs
    rfl
  cases goes : i.jumps m.cpu.regs.flags with
  | true =>
    cases i with
    | jump c reg =>
      have taken : c.holds m.cpu.regs.flags = true := goes
      have target : (Instruction.jump c reg).word.getD 1 0 = reg.toNat := rfl
      simp only [State.perform, if_neg (byte_ne_one runs), jumps_inNumbers, goes, if_true, target,
        register_inNumbers, execute, Instruction.effect, taken]
      cases m.cpu.regs.read reg <;> rfl
    | _ => cases goes
  | false =>
    simp only [State.perform, if_neg (byte_ne_one runs), jumps_inNumbers, goes,
      change_inNumbers m endless runs goes, execute, width]
    cases work : i.effect m.cpu.regs with
    | error f => rfl
    | ok e =>
      have moves := moves_of_effect runs goes work
      simp only [Except.map, perform_of_moves m i.width endless moves]
      exact advance_inNumbers (m.settle e) i.width

theorem step_inNumbers (m : Machine) (endless : m.out.room = none) :
    m.inNumbers.step = (m.step.1.map Instruction.word, m.step.2.inNumbers) := by
  have status : m.inNumbers.status = m.cpu.status := rfl
  unfold State.step step
  rw [status]
  by_cases running : m.cpu.status = .running
  · have runs : m.cpu.isRunning = true := by simp [Cpu.isRunning, running]
    simp only [running, runs, if_true, fetch_inNumbers]
    cases m.cpu.fetch with
    | error f => rfl
    | ok i =>
      simp only [Except.map, perform_inNumbers m i endless]
      obtain ⟨answer, m'⟩ := m.execute i
      cases answer with
      | error f => rfl
      | ok done => simp [count, inNumbers]
  · have stopped : m.cpu.isRunning = false := by simp [Cpu.isRunning, running]
    simp [running, stopped, Except.map]

end Machine

def history (step : σ → α × σ) : Nat → σ → List α × σ
  | 0, s => ([], s)
  | n + 1, s =>
    let rest := history step n (step s).2
    ((step s).1 :: rest.1, rest.2)

/-- A machine whose channel takes everything, beside its numbers. -/
structure Agrees (m : Machine) (s : State) : Prop where
  endless : m.out.room = none
  numbers : s = m.inNumbers

theorem step_agrees {m : Machine} {s : State} (h : Agrees m s) :
    s.step.1 = m.step.1.map Instruction.word ∧ Agrees m.step.2 s.step.2 := by
  have same := Machine.step_inNumbers m h.endless
  rw [← h.numbers] at same
  exact ⟨congrArg Prod.fst same, Machine.endless_step h.endless, congrArg Prod.snd same⟩

theorem history_agrees (n : Nat) {m : Machine} {s : State} (h : Agrees m s) :
    (history State.step n s).1 = (history Machine.step n m).1.map (Except.map Instruction.word) ∧
      Agrees (history Machine.step n m).2 (history State.step n s).2 := by
  induction n generalizing m s with
  | zero => exact ⟨rfl, h⟩
  | succ n ih =>
    have first := step_agrees h
    have rest := ih first.2
    simp only [history, List.map_cons, first.1, rest.1]
    exact ⟨trivial, rest.2⟩

/-- From any processor, over any number of steps, the byte machine gives the answers of the
machine in natural numbers and ends in its state. -/
theorem history_inNumbers (cpu : Cpu) (printed : String) (n : Nat) :
    let m : Machine := ⟨cpu, printed, none⟩
    history State.step n m.inNumbers =
      ((history Machine.step n m).1.map (Except.map Instruction.word),
        (history Machine.step n m).2.inNumbers) := by
  intro m
  have agreement := history_agrees n (m := m) ⟨rfl, rfl⟩
  exact Prod.ext agreement.1 agreement.2.numbers

end Ls8
