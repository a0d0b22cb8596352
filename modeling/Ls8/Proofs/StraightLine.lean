import Ls8.Proofs.Disassembly.Fetched
import Ls8.Proofs.LockStep
import Ls8.Proofs.Runs

/-! Programs without jumps. What such a program does is told by its list of instructions alone, one
after another over cleared registers, and a machine that runs its bytes does the same. -/
namespace Ls8

def Instruction.isStraight : Instruction → Bool
  | halt | jump .. => false
  | _ => true

/-- What an operation makes of two values that it is defined for. -/
def BinaryOp.value (x y : UInt8) : BinaryOp → UInt8
  | and => x &&& y
  | or => x ||| y
  | xor => x ^^^ y
  | shl => (x.toNat * 2 ^ y.toNat).toUInt8
  | shr => (x.toNat / 2 ^ y.toNat).toUInt8
  | mod => x % y

structure Sheet where
  general : Vector UInt8 8
  flags : Flags
  printed : List UInt8
  deriving DecidableEq

namespace Sheet

def blank : Sheet := ⟨Vector.replicate 8 0, .unset, []⟩

def reg (s : Sheet) (r : UInt8) : UInt8 := s.general[r.toNat]?.getD 0

def put (s : Sheet) (r v : UInt8) : Sheet :=
  { s with general := s.general.setIfInBounds r.toNat v }

def dividesByZero (s : Sheet) : Instruction → Bool
  | .binary .mod _ b => s.reg b == 0
  | _ => false

/-- Why an instruction cannot be carried out: it names a register that does not exist, or takes a
remainder by zero. -/
def obstacle (s : Sheet) (i : Instruction) : Option Fault :=
  match i.registers.find? (8 ≤ ·) with
  | some x => some (.register (.noRegister x))
  | none => if s.dividesByZero i then some .divideByZero else none

def after (s : Sheet) : Instruction → Sheet
  | .load r v => s.put r v
  | .print r => { s with printed := s.printed ++ [s.reg r] }
  | .compare a b =>
    { s with flags := ⟨decide (s.reg a = s.reg b), decide (s.reg b < s.reg a),
        decide (s.reg a < s.reg b)⟩ }
  | .complement r => s.put r (~~~ s.reg r)
  | .binary op a b => s.put a (op.value (s.reg a) (s.reg b))
  | .halt | .jump .. => s

def afterAll (code : List Instruction) : Sheet := code.foldl after blank

def text (s : Sheet) : String := String.join (s.printed.map fun v => toString v.toNat ++ "\n")

def registers (s : Sheet) (pc : Nat) : Registers := ⟨s.general, pc.toUInt8, s.flags⟩

section

variable {s : Sheet} {pc : Nat} {r a b v : UInt8} {f : Fault} {i : Instruction}

theorem read_of_lt (known : r < 8) : (s.registers pc).read r = .ok (s.reg r) := by
  have inside : r.toNat < 8 := UInt8.lt_iff_toNat_lt.mp known
  simp [Registers.read, Registers.get, registers, reg, inside, Except.mapError]

theorem read_of_ge (unknown : 8 ≤ r) :
    (s.registers pc).read r = .error (.register (.noRegister r)) := by
  have outside : 8 ≤ r.toNat := UInt8.le_iff_toNat_le.mp unknown
  simp [Registers.read, Registers.get, registers, outside, Except.mapError]

theorem store_of_lt (known : r < 8) :
    (s.registers pc).store r v = .ok (.update ((s.put r v).registers pc)) := by
  have inside : r.toNat < 8 := UInt8.lt_iff_toNat_lt.mp known
  simp [Registers.store, Registers.set, registers, put, inside, Except.mapError, Except.map]

theorem store_of_ge (unknown : 8 ≤ r) :
    (s.registers pc).store r v = .error (.register (.noRegister r)) := by
  have outside : ¬ r.toNat < 8 := Nat.not_lt_of_le (UInt8.le_iff_toNat_le.mp unknown)
  simp [Registers.store, Registers.set, outside, Except.mapError, Except.map]

theorem apply_value {op : BinaryOp} {x y : UInt8} (defined : op = .mod → y ≠ 0) :
    op.apply x y = .ok (op.value x y) := by
  have toUInt8 : ∀ {u : UInt8} {n : Nat}, u.toNat = n % 256 → u = n.toUInt8 := by
    intro u n same
    exact UInt8.toNat_inj.mp same
  cases op with
  | and => rfl
  | or => rfl
  | xor => rfl
  | shl => exact congrArg Except.ok (toUInt8 (Machine.shiftLeft_toNat x y))
  | shr =>
    have small : x.toNat / 2 ^ y.toNat < 256 :=
      Nat.lt_of_le_of_lt (Nat.div_le_self _ _) x.toNat_lt
    have shifted := Machine.shiftRight_toNat x y
    rw [← Nat.mod_eq_of_lt small] at shifted
    exact congrArg Except.ok (toUInt8 shifted)
  | mod => exact if_neg (defined rfl)

def request (s : Sheet) (pc : Nat) (i : Instruction) : Effect :=
  match i with
  | .print r => .print (s.reg r)
  | _ => .update ((s.after i).registers pc)

theorem moves_request : (s.request pc i).moves = true := by
  cases i <;> rfl

theorem known_of_clear (h : i.registers.find? (8 ≤ ·) = none) : ∀ x ∈ i.registers, x < 8 := by
  intro x member
  have small := List.find?_eq_none.mp h x member
  simpa using small

theorem obstacle_eq_none (h : s.obstacle i = none) :
    (∀ x ∈ i.registers, x < 8) ∧ s.dividesByZero i = false := by
  unfold obstacle at h
  split at h
  · cases h
  · next none_found =>
    refine ⟨known_of_clear none_found, ?_⟩
    split at h
    · cases h
    · next defined => exact Bool.eq_false_iff.mpr defined

theorem obstacle_eq_some (h : s.obstacle i = some f) :
    (∃ x, i.registers.find? (8 ≤ ·) = some x ∧ f = .register (.noRegister x)) ∨
      (∀ x ∈ i.registers, x < 8) ∧ s.dividesByZero i = true ∧ f = .divideByZero := by
  unfold obstacle at h
  split at h
  · next x first =>
    cases h
    exact .inl ⟨x, first, rfl⟩
  · next none_found =>
    split at h
    · next zero =>
      cases h
      exact .inr ⟨known_of_clear none_found, zero, rfl⟩
    · cases h

theorem nonzero_of_defined {op : BinaryOp} (h : s.dividesByZero (.binary op a b) = false) :
    op = .mod → s.reg b ≠ 0 := by
  rintro rfl zero
  rw [dividesByZero, zero] at h
  cases h

theorem effect_of_clear (straight : i.isStraight = true) (h : s.obstacle i = none) :
    i.effect (s.registers pc) = .ok (s.request pc i) := by
  obtain ⟨known, defined⟩ := obstacle_eq_none h
  cases i with
  | halt => cases straight
  | jump c r => cases straight
  | load r v => exact store_of_lt (known r List.mem_cons_self)
  | print r =>
    rw [Instruction.effect, read_of_lt (known r List.mem_cons_self)]
    rfl
  | compare a b =>
    have left := known a List.mem_cons_self
    have right := known b (List.mem_cons_of_mem a List.mem_cons_self)
    have flags : Flags.compare (s.reg a) (s.reg b) = (s.after (.compare a b)).flags := by
      rw [Flags.compare, beq_eq_decide]
      rfl
    rw [Instruction.effect, read_of_lt left, read_of_lt right]
    exact congrArg (fun f => Except.ok (Effect.update ⟨s.general, pc.toUInt8, f⟩)) flags
  | complement r =>
    have inside := known r List.mem_cons_self
    rw [Instruction.effect, read_of_lt inside]
    exact store_of_lt inside
  | binary op a b =>
    have left := known a List.mem_cons_self
    have right := known b (List.mem_cons_of_mem a List.mem_cons_self)
    rw [Instruction.effect, read_of_lt left, read_of_lt right]
    simp only [bind, Except.bind, apply_value (nonzero_of_defined defined)]
    exact store_of_lt left

theorem strange_single {x : UInt8} (h : [r].find? (8 ≤ ·) = some x) : 8 ≤ x ∧ r = x := by
  have strange : 8 ≤ x := by simpa using List.find?_some h
  exact ⟨strange, (List.mem_singleton.mp (List.mem_of_find?_eq_some h)).symm⟩

theorem strange_pair {x : UInt8} (h : [a, b].find? (8 ≤ ·) = some x)
    (work : UInt8 → UInt8 → Except Fault Effect) :
    (do let x ← (s.registers pc).read a; let y ← (s.registers pc).read b; work x y) =
      .error (.register (.noRegister x)) := by
  by_cases strange : 8 ≤ a
  · have first : a = x := by simpa [strange] using h
    rw [read_of_ge strange, first]
    rfl
  · have rest : [b].find? (8 ≤ ·) = some x := by simpa [strange] using h
    obtain ⟨strange', rfl⟩ := strange_single rest
    rw [read_of_lt (UInt8.not_le.mp strange), read_of_ge strange']
    rfl

theorem effect_of_blocked (straight : i.isStraight = true) (h : s.obstacle i = some f) :
    i.effect (s.registers pc) = .error f := by
  rcases obstacle_eq_some h with ⟨x, first, rfl⟩ | ⟨known, zero, rfl⟩
  · cases i with
    | halt => cases straight
    | jump c r => cases straight
    | load r v =>
      obtain ⟨strange, rfl⟩ := strange_single first
      exact store_of_ge strange
    | print r =>
      obtain ⟨strange, rfl⟩ := strange_single first
      rw [Instruction.effect, read_of_ge strange]
      rfl
    | compare a b => exact strange_pair first _
    | complement r =>
      obtain ⟨strange, rfl⟩ := strange_single first
      rw [Instruction.effect, read_of_ge strange]
      rfl
    | binary op a b => exact strange_pair first _
  · cases i with
    | binary op a b =>
      have left := known a List.mem_cons_self
      have right := known b (List.mem_cons_of_mem a List.mem_cons_self)
      rw [Instruction.effect, read_of_lt left, read_of_lt right]
      cases op with
      | mod =>
        have division : s.reg b = 0 := eq_of_beq zero
        rw [division]
        rfl
      | _ => cases zero
    | _ => cases zero

end

end Sheet

namespace StraightLine

open Machine (Succeeds Stepping line)
open Sheet (afterAll)

def bytes (code : List Instruction) : List UInt8 := code.flatMap Instruction.encode

def image (code : List Instruction) : List UInt8 := bytes code ++ Instruction.halt.encode

def Clear (code : List Instruction) : Prop :=
  ∀ front i back, code = front ++ i :: back → (afterAll front).obstacle i = none

/-- The machine that has the instructions of `front` behind it. -/
def reached (mem : Memory) (before : String) (front : List Instruction) : Machine :=
  ⟨⟨(afterAll front).registers (bytes front).length, mem, .running, .ofNat front.length,
    front.getLast?⟩, ⟨before ++ (afterAll front).text, none⟩⟩

section

variable {mem : Memory} {before : String} {code front back : List Instruction} {i : Instruction}
  {f : Fault}

theorem clear_of_append (h : Clear (front ++ back)) : Clear front := by
  intro first i rest split
  apply h first i (rest ++ back)
  rw [split, List.append_assoc, List.cons_append]

theorem bytes_append_one (front : List Instruction) (i : Instruction) :
    (bytes (front ++ [i])).length = (bytes front).length + i.width := by
  simp [bytes, i.length_encode]

theorem length_le_bytes (code : List Instruction) : code.length ≤ (bytes code).length := by
  induction code with
  | nil => exact Nat.le_refl 0
  | cons i code ih =>
    have one : bytes (i :: code) = i.encode ++ bytes code := rfl
    rw [one, List.length_append, i.length_encode, List.length_cons, Instruction.width]
    omega

theorem afterAll_append_one (front : List Instruction) (i : Instruction) :
    afterAll (front ++ [i]) = (afterAll front).after i := by
  simp [afterAll]

theorem reached_nil (mem : Memory) (before : String) :
    reached mem before [] = ⟨{ Cpu.new with mem := mem }, before, none⟩ := by
  have empty : (afterAll []).text = "" := rfl
  rw [reached, empty, String.append_empty]
  rfl

theorem pc_reached (small : (bytes front).length < 256) :
    (reached mem before front).cpu.regs.pc.toNat = (bytes front).length :=
  UInt8.toNat_ofNat_of_lt' small

theorem fetch_reached {more : List UInt8} (small : (bytes front).length < 256)
    (here : mem.bytes = bytes front ++ i.encode ++ more) :
    (reached mem before front).cpu.fetch = .ok i := by
  apply Cpu.fetch_of_encode
  rw [pc_reached small]
  change mem.bytes.drop _ = _
  rw [here, List.append_assoc, List.drop_left]

theorem text_print (s : Sheet) (r : UInt8) :
    (s.after (.print r)).text = s.text ++ String.ofList (line (s.reg r)) := by
  rw [Machine.ofList_line]
  simp [Sheet.after, Sheet.text]

theorem settle_request {c : Cpu} {s : Sheet} {pc : Nat} (regs : c.regs = s.registers pc) :
    Machine.settle ⟨c, before ++ s.text, none⟩ (s.request pc i) =
      ⟨{ c with regs := (s.after i).registers pc }, before ++ (s.after i).text, none⟩ := by
  cases i with
  | print r =>
    have same : (s.after (.print r)).registers pc = c.regs := regs.symm
    rw [same, text_print, ← String.append_assoc]
    rfl
  | _ => rfl

theorem step_reached (before : String) {more : List UInt8}
    (here : mem.bytes = bytes front ++ i.encode ++ more)
    (room : (bytes (front ++ [i])).length < 256) (straight : i.isStraight = true)
    (clear : (afterAll front).obstacle i = none) :
    (reached mem before front).step = (.ok i, reached mem before (front ++ [i])) := by
  have next := bytes_append_one front i
  have small : (bytes front).length < 256 := by omega
  have pc : (reached mem before front).cpu.regs.pc.toNat = (bytes front).length :=
    pc_reached small
  have taken : (reached mem before front).takes
      ((afterAll front).request (bytes front).length i) = true := by
    cases i <;> rfl
  have stepped := Machine.step_of_moved (m := reached mem before front) rfl
    (fetch_reached small here) (Sheet.effect_of_clear straight clear) Sheet.moves_request taken
    (by rw [pc]; omega)
  rw [stepped, pc, reached, settle_request rfl, ← next]
  rw [reached, afterAll_append_one, List.length_append, List.getLast?_append, UInt64.ofNat_add]
  rfl

theorem blocked_reached (before : String) {more : List UInt8}
    (here : mem.bytes = bytes front ++ i.encode ++ more)
    (small : (bytes front).length < 256) (straight : i.isStraight = true)
    (blocked : (afterAll front).obstacle i = some f) :
    (reached mem before front).step = (.error f, (reached mem before front).setStatus .error) :=
  Machine.step_of_unable rfl (fetch_reached small here) (Sheet.effect_of_blocked straight blocked)

theorem succeeds_reached (before : String) {more : List UInt8}
    (here : mem.bytes = bytes front ++ more) (room : (bytes front).length < 256)
    (straight : ∀ i ∈ front, i.isStraight = true) (clear : Clear front) :
    Succeeds front.length (reached mem before []) (reached mem before front) := by
  induction front using List.reverseRecOn generalizing more with
  | nil => exact .nil _
  | append_singleton front i ih =>
    have one : bytes (front ++ [i]) = bytes front ++ i.encode := by simp [bytes]
    have shorter : (bytes front).length < 256 := by
      rw [one, List.length_append] at room
      omega
    rw [one] at here
    have last := step_reached before here room (straight i (by simp)) (clear front i [] rfl)
    rw [List.append_assoc] at here
    have first := ih here shorter (fun j member => straight j (by simp [member]))
      (clear_of_append clear)
    rw [List.length_append]
    exact first.append (.cons last (.nil _))

theorem run_of_clear {more : List UInt8} (here : mem.bytes = image code ++ more)
    (room : (bytes code).length < 256) (straight : ∀ i ∈ code, i.isStraight = true)
    (clear : Clear code) :
    (reached mem before []).run = some (.ok (.ofNat (code.length + 1)),
      ⟨⟨(afterAll code).registers (bytes code).length, mem, .halted, .ofNat (code.length + 1),
        some .halt⟩, before ++ (afterAll code).text, none⟩) := by
  rw [image] at here
  have halts := Machine.step_of_halt (m := reached mem before code) rfl (fetch_reached room here)
  rw [List.append_assoc] at here
  have made := succeeds_reached before here room straight clear
  have whole := made.append (.cons halts (.nil _))
  have within : code.length + 1 ≤ UInt64.size - 1 := by
    have short := length_le_bytes code
    have size : UInt64.size = 2 ^ 64 := rfl
    omega
  rw [Machine.run_of_stepping (.stopped within whole rfl) (by simp), Machine.Ending.answer,
    UInt64.ofNat_add]
  · rfl
  · simp

theorem run_of_blocked {more : List UInt8} (here : mem.bytes = bytes front ++ i.encode ++ more)
    (room : (bytes front).length < 256) (straight : ∀ j ∈ front ++ [i], j.isStraight = true)
    (clear : Clear front) (blocked : (afterAll front).obstacle i = some f) :
    (reached mem before []).run = some (.error f, (reached mem before front).setStatus .error) := by
  have fails := blocked_reached before here room (straight i (by simp)) blocked
  rw [List.append_assoc] at here
  have made := succeeds_reached before here room
    (fun j member => straight j (by simp [member])) clear
  have within : front.length < UInt64.size - 1 := by
    have short := length_le_bytes front
    have size : UInt64.size = 2 ^ 64 := rfl
    omega
  exact Machine.run_of_stepping (.failed within made rfl fails) (by simp)

end

/-- A program without jumps is carried out as its list of instructions reads. It ends at its halt if
no instruction meets an obstacle; otherwise it ends at the first one that does, with what the
instructions before it have left. -/
theorem runs_as_listed (code : List Instruction) (straight : ∀ i ∈ code, i.isStraight = true)
    (fits : (image code).length ≤ Memory.space) (before : String) :
    ∃ cpu, Cpu.ofProgram (image code) = .ok cpu ∧
      cpu.mem.bytes = image code ++ List.replicate (Memory.space - (image code).length) 0 ∧
      (Clear code → Machine.run ⟨cpu, before, none⟩ = some (.ok (.ofNat (code.length + 1)),
        ⟨⟨(afterAll code).registers (bytes code).length, cpu.mem, .halted,
          .ofNat (code.length + 1), some .halt⟩, before ++ (afterAll code).text, none⟩)) ∧
      ∀ front i back f, code = front ++ i :: back → Clear front →
        (afterAll front).obstacle i = some f →
        Machine.run ⟨cpu, before, none⟩ = some (.error f,
          ⟨⟨(afterAll front).registers (bytes front).length, cpu.mem, .error,
            .ofNat front.length, front.getLast?⟩, before ++ (afterAll front).text, none⟩) := by
  have room : (bytes code).length < 256 := by
    rw [image, List.length_append] at fits
    exact fits
  refine ⟨_, Cpu.ofProgram_eq fits, rfl, ?_, ?_⟩
  · intro clear
    rw [← reached_nil]
    exact run_of_clear rfl room straight clear
  · intro front i back f split clear blocked
    have later : image code = bytes front ++ i.encode ++ (bytes back ++ Instruction.halt.encode) := by
      simp [image, bytes, split]
    have shorter : (bytes front).length < 256 := by
      have whole := congrArg List.length later
      simp only [image, List.length_append] at whole
      omega
    rw [← reached_nil]
    have cells : Memory.bytes ⟨(image code ++
        List.replicate (Memory.space - (image code).length) 0).toArray⟩ =
        bytes front ++ i.encode ++ (bytes back ++ Instruction.halt.encode ++
          List.replicate (Memory.space - (image code).length) 0) := by
      rw [Memory.bytes, ← List.append_assoc, ← later]
    apply run_of_blocked cells shorter ?_ clear blocked
    intro j member
    apply straight
    rw [split]
    rcases List.mem_append.mp member with earlier | here
    · exact List.mem_append_left _ earlier
    · rw [List.mem_singleton.mp here]
      exact List.mem_append_right _ List.mem_cons_self

def remainder : List Instruction := [.load 0 8, .print 0, .binary .mod 0 1, .print 1]

theorem runs_as_listed_remainder :
    (∀ i ∈ remainder, i.isStraight = true) ∧ (image remainder).length = 11 ∧
      ∃ cpu, Cpu.ofProgram (image remainder) = .ok cpu ∧
        Machine.run ⟨cpu, "", none⟩ = some (.error .divideByZero,
          ⟨⟨⟨#v[8, 0, 0, 0, 0, 0, 0, 0], 5, .unset⟩, cpu.mem, .error, 2, some (.print 0)⟩,
            "8\n", none⟩) := by
  have straight : ∀ i ∈ remainder, i.isStraight = true := by decide
  have clear : Clear [.load 0 8, .print 0] := by
    intro front i back split
    match front with
    | [] =>
      cases split
      decide
    | [_] =>
      cases split
      decide
    | _ :: _ :: _ => simp at split
  obtain ⟨cpu, loaded, -, -, blocked⟩ := runs_as_listed remainder straight (by decide) ""
  have ran := blocked [.load 0 8, .print 0] (.binary .mod 0 1) [.print 1] .divideByZero rfl clear
    (by decide)
  have regs : (afterAll [.load 0 8, .print 0]).registers (bytes [.load 0 8, .print 0]).length =
      ⟨#v[8, 0, 0, 0, 0, 0, 0, 0], 5, .unset⟩ := by decide
  have text : "" ++ (afterAll [.load 0 8, .print 0]).text = "8\n" := by decide +kernel
  rw [regs, text] at ran
  exact ⟨straight, rfl, cpu, loaded, ran⟩

end StraightLine
end Ls8
