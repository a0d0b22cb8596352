import Ls8.Proofs.Runs
import Ls8.Snapshot

/-! How many cells a memory has. A new one has 256, and of all that can be done to a processor only
restoring a snapshot changes the number: no check holds a snapshot to 256 cells. Loads and dumps
rely on there being at least as many, and a reset that leaves a new processor on there being no
more. -/
namespace Ls8

namespace Memory

def LoadBreaks (m : Memory) (start : Nat) (program : List UInt8) : Prop :=
  m.load start program = none

def DumpBreaks (m : Memory) (start count : Nat) : Prop := m.dump start count = none

section

variable {m : Memory} {start count : Nat} {program : List UInt8}

theorem loadBreaks_iff : m.LoadBreaks start program ↔
    start + program.length ≤ space ∧ m.cells.size < start + program.length := by
  constructor
  · intro breaks
    unfold LoadBreaks at breaks
    by_cases fits : start + program.length ≤ space
    · by_cases cells : start + program.length ≤ m.cells.size
      · rw [load_of_fits fits cells] at breaks
        cases breaks
      · exact ⟨fits, Nat.lt_of_not_le cells⟩
    · rw [load_of_large (Nat.lt_of_not_le fits)] at breaks
      cases breaks
  · rintro ⟨fits, short⟩
    exact load_of_short fits short

theorem dumpBreaks_iff : m.DumpBreaks start count ↔
    start < min (start + count) space ∧ m.cells.size < min (start + count) space := by
  generalize ends : min (start + count) space = stop
  rw [DumpBreaks, dump, mapM_eq_none]
  simp only [ends, List.mem_range'_1, Option.map_eq_none_iff, Array.getElem?_eq_none_iff]
  constructor
  · rintro ⟨a, inside, missing⟩
    omega
  · rintro ⟨room, short⟩
    exact ⟨stop - 1, by omega, by omega⟩

theorem no_load_breaks : (∀ start program, ¬ m.LoadBreaks start program) ↔
    space ≤ m.cells.size := by
  constructor
  · intro sound
    -- An empty program at the very end asks for every cell and fits.
    refine Nat.le_of_not_lt fun short => sound space [] (loadBreaks_iff.mpr ?_)
    exact ⟨Nat.le_refl space, short⟩
  · intro enough start program breaks
    obtain ⟨fits, short⟩ := loadBreaks_iff.mp breaks
    omega

theorem no_dump_breaks : (∀ start count, ¬ m.DumpBreaks start count) ↔
    space ≤ m.cells.size := by
  constructor
  · intro sound
    refine Nat.le_of_not_lt fun short => sound 0 space (dumpBreaks_iff.mpr ?_)
    rw [Nat.zero_add, Nat.min_self]
    exact ⟨by decide, short⟩
  · intro enough start count breaks
    obtain ⟨-, short⟩ := dumpBreaks_iff.mp breaks
    omega

end

end Memory

/-- What can be done to a processor. Where it prints, it is given a channel. -/
inductive Action where
  | step (out : Channel)
  | run (out : Channel)
  | runLimited (out : Channel) (most : UInt64)
  | load (program : List UInt8)
  | read (address : Nat)
  | write (address : Nat) (byte : UInt8)
  | loadAt (start : Nat) (program : List UInt8)
  | clear
  | dump (start count : Nat)
  | reset
  | restore (text : List Char)

namespace Cpu

/-- The memory that an access leaves; one that is refused or breaks off leaves the memory that was
there. -/
def remember (c : Cpu) : Option (Except MemoryError Memory) → Cpu
  | some (.ok mem) => { c with mem := mem }
  | some (.error _) | none => c

/-- What an action makes of a processor. A run that does not end leaves none. -/
def act (c : Cpu) : Action → Option Cpu
  | .step out => some (Machine.step ⟨c, out⟩).2.cpu
  | .run out => (Machine.run ⟨c, out⟩).map fun ended => ended.2.cpu
  | .runLimited out most => some (Machine.runLimited ⟨c, out⟩ most).2.cpu
  | .load program => some (((c.load program).bind Except.toOption).getD c)
  | .read _ => some c
  | .write a b => some (c.remember (some (c.mem.write a b)))
  | .loadAt start program => some (c.remember (c.mem.load start program))
  | .clear => some (c.remember (some (.ok c.mem.clear)))
  | .dump _ _ => some c
  | .reset => some c.reset
  | .restore text => some ((restore? text).getD c)

end Cpu

def Action.cells (n : Nat) : Action → Nat
  | .restore text => (Cpu.restore? text).elim n fun c => c.mem.cells.size
  | _ => n

section

variable {c c' : Cpu}

theorem size_remember {r : Option (Except MemoryError Memory)}
    (same : ∀ mem, r = some (.ok mem) → mem.cells.size = c.mem.cells.size) :
    (c.remember r).mem.cells.size = c.mem.cells.size := by
  rcases r with _ | e | mem
  · rfl
  · rfl
  · exact same mem rfl

theorem size_load {program : List UInt8} :
    (((c.load program).bind Except.toOption).getD c).mem.cells.size = c.mem.cells.size := by
  rcases loaded : c.mem.load 0 program with _ | e | mem
  · simp [Cpu.load, loaded]
  · simp [Cpu.load, loaded, Except.map, Except.toOption]
  · simp [Cpu.load, loaded, Except.map, Except.toOption, Memory.size_load loaded]

theorem size_act {a : Action} (h : c.act a = some c') :
    c'.mem.cells.size = a.cells c.mem.cells.size := by
  cases a with
  | step out =>
    cases h
    rw [Machine.mem_step]
    rfl
  | run out =>
    obtain ⟨⟨r, m'⟩, ended, rfl⟩ := Option.map_eq_some_iff.mp h
    rw [Machine.left_run ended, Machine.mem_steps]
    rfl
  | runLimited out most =>
    cases h
    rw [Machine.left_runLimited, Machine.mem_steps]
    rfl
  | load program =>
    cases h
    exact size_load
  | read a =>
    cases h
    rfl
  | write a b =>
    cases h
    exact size_remember fun mem written => Memory.size_write (Option.some.inj written)
  | loadAt start program =>
    cases h
    exact size_remember fun mem => Memory.size_load
  | clear =>
    cases h
    exact Memory.size_clear c.mem
  | dump start count =>
    cases h
    rfl
  | reset =>
    cases h
    exact Memory.size_clear c.mem
  | restore text =>
    cases h
    rw [Action.cells]
    cases Cpu.restore? text <;> rfl

theorem size_actions (actions : List Action) (done : actions.foldlM Cpu.act c = some c') :
    c'.mem.cells.size = actions.foldl Action.cells c.mem.cells.size := by
  induction actions generalizing c with
  | nil =>
    cases done
    rfl
  | cons a actions ih =>
    obtain ⟨next, first, rest⟩ := Option.bind_eq_some_iff.mp done
    rw [ih rest, size_act first, List.foldl_cons]

theorem reset_eq_new : c.reset = Cpu.new ↔ c.mem.cells.size = Memory.space := by
  constructor
  · intro same
    calc c.mem.cells.size = c.reset.mem.cells.size := (Memory.size_clear c.mem).symm
      _ = Memory.space := by rw [same]; exact Array.size_replicate
  · intro right
    rw [Cpu.reset, Memory.clear, right]
    rfl

theorem foldl_cells {actions : List Action} {n : Nat} (keep : ∀ a ∈ actions, a.cells n = n) :
    actions.foldl Action.cells n = n := by
  induction actions with
  | nil => rfl
  | cons a actions ih =>
    rw [List.foldl_cons, keep a List.mem_cons_self]
    exact ih fun b later => keep b (List.mem_cons_of_mem a later)

end

/-- A new memory's 256 cells stay, except that a restored snapshot brings the cells it lists. No
load and no dump can break iff there are at least 256, and a reset is like new iff there are just
256. -/
theorem cells_after (actions : List Action) (c : Cpu)
    (done : actions.foldlM Cpu.act Cpu.new = some c) :
    let n := actions.foldl Action.cells Memory.space
    c.mem.cells.size = n ∧
      ((∀ a ∈ actions, a.cells Memory.space = Memory.space) → n = Memory.space) ∧
      ((∀ start program, ¬ c.mem.LoadBreaks start program) ↔ Memory.space ≤ n) ∧
      ((∀ start count, ¬ c.mem.DumpBreaks start count) ↔ Memory.space ≤ n) ∧
      (c.reset = Cpu.new ↔ n = Memory.space) := by
  intro n
  have size : c.mem.cells.size = n := by
    rw [size_actions actions done, Cpu.size_new]
  refine ⟨size, foldl_cells, ?_, ?_, ?_⟩
  · rw [← size]
    exact Memory.no_load_breaks
  · rw [← size]
    exact Memory.no_dump_breaks
  · rw [← size]
    exact reset_eq_new

def threeCells : Cpu := { Cpu.new with mem := ⟨#[1, 2, 3]⟩ }

theorem cells_after_restore :
    Cpu.restore? threeCells.snapshot = some threeCells ∧
      ∃ c, [.restore threeCells.snapshot, .load [0x82, 0, 8, 1]].foldlM Cpu.act Cpu.new = some c ∧
        c.mem.cells.size = 3 ∧
        (¬ ∀ start program, ¬ c.mem.LoadBreaks start program) ∧
        (¬ ∀ start count, ¬ c.mem.DumpBreaks start count) ∧ c.reset ≠ Cpu.new := by
  have restored : Cpu.restore? threeCells.snapshot = some threeCells := by decide +kernel
  have done : [.restore threeCells.snapshot, .load [0x82, 0, 8, 1]].foldlM Cpu.act Cpu.new =
      some threeCells := by
    rw [List.foldlM_cons, Cpu.act, restored]
    rfl
  have cells : [.restore threeCells.snapshot, .load [0x82, 0, 8, 1]].foldl Action.cells
      Memory.space = 3 := by
    rw [List.foldl_cons, Action.cells, restored]
    rfl
  have few : ¬ Memory.space ≤ 3 := by decide
  obtain ⟨size, -, load, dump, reset⟩ := cells_after _ _ done
  rw [cells] at size load dump reset
  exact ⟨restored, threeCells, done, size, few ∘ load.mp, few ∘ dump.mp,
    fun same => absurd (reset.mp same) (by decide)⟩

end Ls8
