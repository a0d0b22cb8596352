import Ls8.Proofs.Runs

/-! The count of a run with a limit, whatever number it begins with. Sums and differences of 64 bits
wrap around, but a run that gives up where one of them would is the same run. -/
namespace Ls8.Machine

/-- A step; `none` where it succeeds and 64 bits do not hold the count with it. -/
def step? (m : Machine) : Option (Except Fault Instruction × Machine) :=
  match m.step with
  | (.ok i, m') => if m.cpu.cycles.toNat + 1 < UInt64.size then some (.ok i, m') else none
  | (.error f, m') => some (.error f, m')

theorem step_of_step? {m m' : Machine} {i : Instruction} (h : m.step? = some (.ok i, m')) :
    m.step = (.ok i, m') := by
  unfold step? at h
  split at h
  · next taken =>
    split at h <;> cases h
    exact taken
  · cases h

def runBelow? (limit : UInt64) (m : Machine) : Option (Except Fault Unit × Machine) :=
  if m.cpu.isRunning = true ∧ m.cpu.cycles < limit then
    match _ : m.step? with
    | some (.ok _, m') => runBelow? limit m'
    | some (.error f, m') => some (.error f, m')
    | none => none
  else some (.ok (), m)
  termination_by remaining limit m
  decreasing_by
    have counted := remaining_step (And.right ‹_ ∧ _›) (step_of_step? ‹m.step? = _›)
    omega

/-- A run with a limit; `none` where a count or the difference of two of them would wrap around. -/
def runLimited? (m : Machine) (most : UInt64) : Option (Except Fault UInt64 × Machine) :=
  match m.runBelow? (saturate m.cpu.cycles most) with
  | some (.error f, m') => some (.error f, m')
  | some (.ok (), m') =>
    if m.cpu.cycles ≤ m'.cpu.cycles then some (.ok (m'.cpu.cycles - m.cpu.cycles), m') else none
  | none => none

section

variable {m m' : Machine} {k n : Nat} {e : Ending}

/-- Below a limit there is room for one more step: the limit has 64 bits itself. -/
theorem step?_of_below {limit : UInt64} (below : m.cpu.cycles < limit) :
    m.step? = some m.step := by
  have room : m.cpu.cycles.toNat + 1 < UInt64.size :=
    Nat.lt_of_le_of_lt (UInt64.lt_iff_toNat_lt.mp below) limit.toNat_lt
  unfold step?
  split
  · next taken => rw [if_pos room, taken]
  · next taken => rw [taken]

/-- The guard is there before every step, so that no count of the loop wraps. -/
theorem runBelow?_eq (limit : UInt64) (m : Machine) :
    m.runBelow? limit = some (m.runBelow limit) := by
  induction m using runBelow.induct limit with
  | case1 m more i m' taken ih =>
    have counted := (step?_of_below more.2).trans (congrArg some taken)
    rw [runBelow_step more taken, ← ih, runBelow?, if_pos more]
    grind
  | case2 m more f m' taken =>
    have counted := (step?_of_below more.2).trans (congrArg some taken)
    rw [runBelow_failed more taken, runBelow?, if_pos more]
    grind
  | case3 m stop => rw [runBelow_stopped stop, runBelow?, if_neg stop]

theorem room_of_remaining (m : Machine) (most : UInt64) :
    m.cpu.cycles.toNat + remaining (saturate m.cpu.cycles most) m < UInt64.size := by
  have inside := m.cpu.cycles.toNat_lt_size
  rw [remaining_saturate]
  omega

theorem runLimited?_eq (m : Machine) (most : UInt64) :
    m.runLimited? most = some (m.runLimited most) := by
  obtain ⟨k, h⟩ := stepping (remaining (saturate m.cpu.cycles most) m) m
  have grown : m.cpu.cycles ≤ (m.runBelow (saturate m.cpu.cycles most)).2.cpu.cycles := by
    rw [runBelow_of_stepping h, UInt64.le_iff_toNat_le, h.count (room_of_remaining m most)]
    exact Nat.le_add_right _ k
  unfold runLimited? runLimited
  rw [runBelow?_eq]
  rcases ended : m.runBelow (saturate m.cpu.cycles most) with ⟨answer, last⟩
  rw [ended] at grown
  cases answer with
  | error f => rfl
  | ok => exact if_pos grown

theorem Stepping.whole (h : Stepping n m k e m') (runs : m'.cpu.isRunning = true)
    (unfailed : ∀ f, e ≠ .failed f) : k = n := by
  cases h with
  | cutOff => rfl
  | stopped _ _ idle =>
    rw [runs] at idle
    cases idle
  | failed => exact absurd rfl (unfailed _)

end

/-- A run with any limit from any count. Its counts do not wrap around; it makes as many steps as it
counts, and stops short of its limit and of the largest count only where the processor stops or a
step fails. -/
theorem runLimited_counts (m : Machine) (most : UInt64) :
    let room := min most.toNat (UInt64.size - 1 - m.cpu.cycles.toNat)
    m.runLimited? most = some (m.runLimited most) ∧
    ∃ k e m', Stepping room m k e m' ∧ m.runLimited most = (e.answer k, m') ∧
      m'.cpu.cycles.toNat = m.cpu.cycles.toNat + k ∧
      ∀ a, (m.runLimited most).1 = .ok a →
        a.toNat = k ∧ (m'.cpu.isRunning = true → a.toNat = room) := by
  intro room
  obtain ⟨k, h⟩ := stepping (remaining (saturate m.cpu.cycles most) m) m
  rcases ended : steps (remaining (saturate m.cpu.cycles most) m) m with ⟨e, m'⟩
  rw [ended] at h
  have answer := runLimited_of_remaining h
  have inside := room_of_remaining m most
  have count := h.count inside
  rw [remaining_saturate] at h inside
  refine ⟨runLimited?_eq m most, k, e, m', h, answer, count, fun a result => ?_⟩
  rw [answer] at result
  rcases e.failed_or_unfailed with ⟨f, rfl⟩ | unfailed
  · cases result
  · rw [Ending.answer_unfailed unfailed] at result
    have within := h.le
    have same : a.toNat = k := by
      cases result
      exact UInt64.toNat_ofNat_of_lt' (by omega)
    exact ⟨same, fun runs => same.trans (h.whole runs unfailed)⟩

end Ls8.Machine
