import Ls8.Proofs.Life
import Ls8.Proofs.Recurrence

/-! What instructions print, and how long a machine can go on. There are finitely many register
files and no instruction changes memory, so that a machine that goes on for long enough never
ends. -/
namespace Ls8

def Cpu.prints (c : Cpu) : Option UInt8 :=
  match c.fetch with
  | .ok (.print r) => (c.regs.get r).toOption
  | _ => none

namespace Machine

/-- What the next `k` instructions print, a line for each value. -/
def shown : Nat → Machine → List Char
  | 0, _ => []
  | k + 1, m => m.cpu.prints.elim [] line ++ shown k m.step.2

section

variable {m m' m'' : Machine} {i : Instruction} {e : Effect} {v : UInt8} {k j : Nat}

theorem effect_eq_print {r : Registers} :
    i.effect r = .ok (.print v) ↔ ∃ x, i = .print x ∧ r.get x = .ok v := by
  constructor
  · intro asked
    cases i with
    | print x =>
      obtain ⟨w, known, same⟩ := map_eq_ok.mp asked
      cases same
      exact ⟨x, rfl, read_eq_ok.mp known⟩
    | halt => cases asked
    | jump c x =>
      cases taken : c.holds r.flags with
      | true =>
        simp only [Instruction.effect, taken] at asked
        obtain ⟨target, -, other⟩ := map_eq_ok.mp asked
        cases other
      | false =>
        simp only [Instruction.effect, taken] at asked
        cases asked
    | load x w =>
      obtain ⟨changed, -, other⟩ := map_eq_ok.mp asked
      cases other
    | compare a b =>
      obtain ⟨x, -, asked⟩ := bind_eq_ok.mp asked
      obtain ⟨y, -, asked⟩ := bind_eq_ok.mp asked
      cases asked
    | complement x =>
      obtain ⟨w, -, asked⟩ := bind_eq_ok.mp asked
      obtain ⟨changed, -, other⟩ := map_eq_ok.mp asked
      cases other
    | binary op a b =>
      obtain ⟨x, -, asked⟩ := bind_eq_ok.mp asked
      obtain ⟨y, -, asked⟩ := bind_eq_ok.mp asked
      obtain ⟨w, -, asked⟩ := bind_eq_ok.mp asked
      obtain ⟨changed, -, other⟩ := map_eq_ok.mp asked
      cases other
  · rintro ⟨x, rfl, known⟩
    rw [Instruction.effect, read_eq_ok.mpr known]
    rfl

theorem toOption_eq_some {x : Except ε α} {a : α} : x.toOption = some a ↔ x = .ok a := by
  cases x <;> simp [Except.toOption]

theorem prints_eq_some {c : Cpu} :
    c.prints = some v ↔ ∃ i, c.fetch = .ok i ∧ i.effect c.regs = .ok (.print v) := by
  simp only [effect_eq_print]
  constructor
  · intro printed
    unfold Cpu.prints at printed
    split at printed
    · next x fetched => exact ⟨_, fetched, x, rfl, toOption_eq_some.mp printed⟩
    · cases printed
  · rintro ⟨i, fetched, x, rfl, known⟩
    rw [Cpu.prints, fetched]
    exact toOption_eq_some.mpr known

theorem prints_eq_none
    (silent : ∀ i v, m.cpu.fetch = .ok i → i.effect m.cpu.regs ≠ .ok (.print v)) :
    m.cpu.prints = none := by
  rw [Option.eq_none_iff_forall_ne_some]
  intro v printed
  obtain ⟨i, fetched, asked⟩ := prints_eq_some.mp printed
  exact silent i v fetched asked

theorem printed_settle (endless : m.out.room = none) (fetched : m.cpu.fetch = .ok i)
    (asked : i.effect m.cpu.regs = .ok e) :
    (m.settle e).out.printed = m.out.printed ++ String.ofList (m.cpu.prints.elim [] line) := by
  have other (silent : ∀ v, e ≠ .print v) : m.cpu.prints = none := by
    apply prints_eq_none
    intro j v fetched' asked'
    cases fetched.symm.trans fetched'
    cases asked.symm.trans asked'
    exact silent v rfl
  cases e with
  | print v =>
    rw [prints_eq_some.mpr ⟨i, fetched, asked⟩]
    simp [settle, Channel.put, endless]
  | _ => simp [settle, other, setRegs]

/-- A step that fails may print too, where the counter cannot move on after the work. -/
theorem printed_step (endless : m.out.room = none) (runs : m.cpu.isRunning = true) :
    m.step.2.out.printed = m.out.printed ++ String.ofList (m.cpu.prints.elim [] line) := by
  have ended := stepped m
  generalize m.step.1 = a, m.step.2 = m' at ended ⊢
  cases ended with
  | idle stopped =>
    rw [runs] at stopped
    cases stopped
  | unread _ fetched =>
    have silent : m.cpu.prints = none := by simp [Cpu.prints, fetched]
    simp [silent, setStatus]
  | unable _ fetched asked =>
    have silent : m.cpu.prints = none := by
      apply prints_eq_none
      intro i v fetched' asked'
      cases fetched.symm.trans fetched'
      cases asked.symm.trans asked'
    simp [silent, setStatus]
  | unprinted _ _ _ full => simp [takes, Channel.fits, endless] at full
  | atEnd _ fetched asked | moved _ fetched asked | halted _ fetched asked
  | jumped _ fetched asked => exact printed_settle endless fetched asked

theorem Succeeds.next (taken : m.step.1 = .ok i) (rest : Succeeds k m.step.2 m') :
    Succeeds (k + 1) m m' :=
  .cons (Prod.ext taken rfl) rest

theorem shown_succ (made : Succeeds k m m') :
    shown (k + 1) m = shown k m ++ m'.cpu.prints.elim [] line := by
  induction made with
  | nil => simp [shown]
  | @cons k m n m' i first _ ih =>
    have next : m.step.2 = n := by rw [first]
    rw [shown, next, ih, ← List.append_assoc, shown, next]

theorem printed_shown (endless : m.out.room = none) (made : Succeeds k m m') :
    m'.out.printed = m.out.printed ++ String.ofList (shown k m) := by
  induction made with
  | nil => simp [shown]
  | @cons k m n m' i first _ ih =>
    have next : m.step.2 = n := by rw [first]
    have printed := printed_step endless (runs_of_step first)
    have endless' := endless_step endless
    rw [next] at printed endless'
    rw [ih endless', printed, shown, next, String.ofList_append, String.append_assoc]

def GoesOn (m : Machine) (k : Nat) : Prop := ∃ m', Succeeds k m m' ∧ m'.cpu.isRunning = true

theorem endless_of_regs {a b : Machine} (endless : m.out.room = none) (later : k < j)
    (made : Succeeds k m a) (made' : Succeeds j m b) (runs : a.cpu.isRunning = true)
    (runs' : b.cpu.isRunning = true) (regs : b.cpu.regs = a.cpu.regs) : m.Endless := by
  obtain ⟨p, rfl⟩ := Nat.exists_eq_add_of_lt later
  rw [Nat.add_assoc] at made'
  obtain ⟨a', front, round⟩ := made'.split
  rw [front.unique made] at round
  have same := alike_of_regs endless made (made.append round) (a.cpu.isRunning_iff.mp runs)
    (b.cpu.isRunning_iff.mp runs') regs
  exact (endless_of_alike same round (Nat.succ_pos p)).before made

def code (r : Registers) : (Fin 8 → Fin 256) × Fin 256 × Bool × Bool × Bool :=
  (fun i => r.general[i].toFin, r.pc.toFin, r.flags.equal, r.flags.greater, r.flags.less)

theorem code_injective {r r' : Registers} (h : code r = code r') : r = r' := by
  obtain ⟨g, pc, ⟨e, gt, lt⟩⟩ := r
  obtain ⟨g', pc', ⟨e', gt', lt'⟩⟩ := r'
  simp only [code, Prod.mk.injEq, UInt8.toFin_inj] at h
  obtain ⟨general, rfl, rfl, rfl, rfl⟩ := h
  have same : g = g' := by
    ext i inside
    exact congrArg (fun f => (f ⟨i, inside⟩).val) general
  rw [same]

theorem GoesOn.before (h : m.GoesOn k) (earlier : j ≤ k) : m.GoesOn j := by
  obtain ⟨m', made, runs⟩ := h
  obtain ⟨more, rfl⟩ := Nat.exists_eq_add_of_le earlier
  obtain ⟨a, front, back⟩ := made.split
  exact ⟨a, front, runs_before back runs⟩

/-- With more instructions than there are register files, one of these comes twice. -/
theorem endless_of_goesOn (endless : m.out.room = none)
    (h : m.GoesOn CommandLine.registerFiles) : m.Endless := by
  have passes (i : Fin (CommandLine.registerFiles + 1)) : m.GoesOn i :=
    h.before (Nat.le_of_lt_succ i.isLt)
  choose a reached running using passes
  have files : Fintype.card ((Fin 8 → Fin 256) × Fin 256 × Bool × Bool × Bool) =
      CommandLine.registerFiles := by
    simp [CommandLine.registerFiles, UInt64.size]
  obtain ⟨i, j, other, same⟩ :=
    Fintype.exists_ne_map_eq_of_card_lt (fun i => code (a i).cpu.regs) (by
      rw [files, Fintype.card_fin]
      exact Nat.lt_succ_self _)
  have regs := code_injective same
  rcases Nat.lt_or_gt_of_ne (Fin.val_ne_of_ne other) with later | later
  · exact endless_of_regs endless later (reached i) (reached j) (running i) (running j) regs.symm
  · exact endless_of_regs endless later (reached j) (reached i) (running j) (running i) regs

theorem Endless.goes (h : m.Endless) (made : Succeeds k m m') :
    ∃ i m'', m'.step = (.ok i, m'') ∧ m''.cpu.isRunning = true := by
  obtain ⟨m'', whole, runs⟩ := h (k + 1)
  obtain ⟨a, front, back⟩ := whole.split
  rw [front.unique made] at back
  cases back with
  | cons first rest =>
    cases rest
    exact ⟨_, m'', first, runs⟩

end

end Machine

end Ls8
