import Mathlib
import Ls8.Machine

/-! What instructions ask for, and where the counter goes on. An instruction that neither halts
nor jumps does its work first and moves the counter afterwards. -/
namespace Ls8

theorem bind_eq_ok {x : Except ε α} {f : α → Except ε β} {b : β} :
    x >>= f = .ok b ↔ ∃ a, x = .ok a ∧ f a = .ok b := by
  cases x with
  | error e => simp [bind, Except.bind]
  | ok a => simp [bind, Except.bind]

theorem map_eq_ok {x : Except ε α} {f : α → β} {b : β} :
    x.map f = .ok b ↔ ∃ a, x = .ok a ∧ f a = b := by
  cases x with
  | error e => simp [Except.map]
  | ok a => simp [Except.map]

theorem bind_eq_error {x : Except ε α} {f : α → Except ε β} {e : ε} :
    x >>= f = .error e ↔ x = .error e ∨ ∃ a, x = .ok a ∧ f a = .error e := by
  cases x with
  | error e' => simp [bind, Except.bind]
  | ok a => simp [bind, Except.bind]

theorem map_eq_error {x : Except ε α} {f : α → β} {e : ε} :
    x.map f = .error e ↔ x = .error e := by
  cases x <;> simp [Except.map]

theorem mapError_eq_ok {x : Except ε α} {g : ε → δ} {a : α} :
    x.mapError g = .ok a ↔ x = .ok a := by
  cases x <;> simp [Except.mapError]

theorem mapError_eq_error {x : Except ε α} {g : ε → δ} {d : δ} :
    x.mapError g = .error d ↔ ∃ e, x = .error e ∧ g e = d := by
  cases x with
  | error e => simp [Except.mapError]
  | ok a => simp [Except.mapError]

theorem mapM_eq_error {f : α → Except ε β} {as : List α} {e : ε} (h : as.mapM f = .error e) :
    ∃ a ∈ as, f a = .error e := by
  induction as with
  | nil => cases h
  | cons a as ih =>
    rw [List.mapM_cons, bind_eq_error] at h
    rcases h with here | ⟨b, -, h⟩
    · exact ⟨a, List.mem_cons_self, here⟩
    · rcases bind_eq_error.mp h with there | ⟨bs, -, h⟩
      · obtain ⟨c, member, failed⟩ := ih there
        exact ⟨c, List.mem_cons_of_mem a member, failed⟩
      · cases h

theorem mapM_eq_none {f : α → Option β} (as : List α) :
    as.mapM f = none ↔ ∃ a ∈ as, f a = none := by
  induction as with
  | nil => simp
  | cons a as ih =>
    rw [List.mapM_cons]
    cases first : f a with
    | none => simp [first]
    | some b => cases rest : as.mapM f <;> simp [first, ← ih, rest]

theorem mapM_each {f : α → β} {g : β → Option γ} {h : α → γ} {as : List α}
    (all : ∀ a ∈ as, g (f a) = some (h a)) : (as.map f).mapM g = some (as.map h) := by
  induction as with
  | nil => rfl
  | cons a as ih =>
    obtain ⟨first, rest⟩ := List.forall_mem_cons.mp all
    rw [List.map_cons, List.mapM_cons, first, ih rest]
    rfl

theorem mapM_back {f : α → β} {g : β → Option α} (back : ∀ a, g (f a) = some a)
    (as : List α) : (as.map f).mapM g = some as := by
  have each : (as.map f).mapM g = some (as.map id) := mapM_each fun a _ => back a
  rwa [List.map_id] at each

def Effect.moves : Effect → Bool
  | .halt | .goto _ => false
  | .update _ | .print _ => true

def Instruction.jumps (f : Flags) : Instruction → Bool
  | .jump c _ => c.holds f
  | _ => false

theorem moves_of_store {r : Registers} {i b : UInt8} {e : Effect} (h : r.store i b = .ok e) :
    e.moves = true := by
  obtain ⟨changed, -, rfl⟩ := map_eq_ok.mp h
  rfl

theorem moves_of_effect {i : Instruction} {r : Registers} {e : Effect} (runs : i ≠ .halt)
    (goes : i.jumps r.flags = false) (h : i.effect r = .ok e) : e.moves = true := by
  cases i with
  | halt => exact absurd rfl runs
  | jump c reg =>
    have untaken : c.holds r.flags = false := goes
    rw [Instruction.effect, untaken] at h
    cases h
    rfl
  | load reg v => exact moves_of_store h
  | print reg =>
    obtain ⟨v, -, rfl⟩ := map_eq_ok.mp h
    rfl
  | compare a b =>
    obtain ⟨x, -, h⟩ := bind_eq_ok.mp h
    obtain ⟨y, -, h⟩ := bind_eq_ok.mp h
    cases h
    rfl
  | complement reg =>
    obtain ⟨x, -, h⟩ := bind_eq_ok.mp h
    exact moves_of_store h
  | binary op a b =>
    obtain ⟨x, -, h⟩ := bind_eq_ok.mp h
    obtain ⟨y, -, h⟩ := bind_eq_ok.mp h
    obtain ⟨v, -, h⟩ := bind_eq_ok.mp h
    exact moves_of_store h

namespace Machine

/-- The machine with an instruction's work done and the counter where it was. -/
def settle (m : Machine) : Effect → Machine
  | .halt | .goto _ => m
  | .update r => m.setRegs r
  | .print value => { m with out := m.out.put (line value) }

def takes (m : Machine) : Effect → Bool
  | .print value => m.out.fits (line value)
  | _ => true

theorem perform_of_takes (m : Machine) (width : Nat) {e : Effect} (moves : e.moves = true)
    (taken : m.takes e = true) : m.perform width e = (m.settle e).advance width := by
  cases e with
  | update r => rfl
  | print v =>
    have fits : m.out.fits (line v) = true := taken
    simp [perform, settle, fits]
  | halt => cases moves
  | goto target => cases moves

theorem perform_of_moves (m : Machine) (width : Nat) {e : Effect} (endless : m.out.room = none)
    (h : e.moves = true) : m.perform width e = (m.settle e).advance width := by
  apply perform_of_takes m width h
  cases e with
  | print v => simp [takes, Channel.fits, endless]
  | _ => rfl

end Machine
end Ls8
