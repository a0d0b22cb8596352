import Ls8.Debugger
import Ls8.Proofs.Disassembly.Rows

/-! Whether the window shows the counter. The walk takes it in on the way or goes back to it, but
goes back only from an address that is still inside memory. -/
namespace Ls8.Debugger

def onward (image : List UInt8) (a : Nat) : List WindowRow :=
  if a < Memory.space then rowAt image a :: onward image (reach image a) else []
  termination_by Memory.space - a
  decreasing_by have := lt_reach image a; omega

def leading (image : List UInt8) (pc a : Nat) : List WindowRow :=
  if a < pc then rowAt image a :: leading image pc (reach image a) else []
  termination_by pc - a
  decreasing_by have := lt_reach image a; omega

/-- Where the rows from an address first come to the counter or past it. -/
def landing (image : List UInt8) (pc a : Nat) : Nat :=
  if a < pc then landing image pc (reach image a) else a
  termination_by pc - a
  decreasing_by have := lt_reach image a; omega

/-- The addresses that rows from address zero begin or end at. -/
inductive Boundary (image : List UInt8) : Nat → Prop where
  | zero : Boundary image 0
  | next {a : Nat} : Boundary image a → Boundary image (reach image a)

/-- A row that begins before the counter takes the walk out of the address space. -/
def Overrun (image : List UInt8) (pc : Nat) : Prop :=
  ∃ a, Boundary image a ∧ a < pc ∧ Memory.space ≤ reach image a

section

variable {image : List UInt8} {pc a : Nat} {listing : List WindowRow}

theorem listed_append (xs ys : List WindowRow) :
    listed pc (xs ++ ys) = (listed pc xs || listed pc ys) := by
  simp [listed]

theorem listed_of_below (below : ∀ r ∈ listing, r.address < pc) : listed pc listing = false := by
  simp only [listed, List.any_eq_false, beq_iff_eq]
  intro r member
  exact Nat.ne_of_lt (below r member)

theorem listed_rowAt (image : List UInt8) (pc : Nat) : listed pc [rowAt image pc] = true := by
  simp [listed, rowAt]

theorem walk_of_listed (found : listed pc listing = true) :
    walk image pc a listing = listing ++ onward image a := by
  induction a using onward.induct image generalizing listing with
  | case1 a inside ih =>
    have stays : resync pc a listing = (a, listing) := by simp [resync, found]
    have kept : listed pc (listing ++ [rowAt image a]) = true := by simp [listed_append, found]
    rw [walk, if_pos inside, onward, if_pos inside]
    simp only [stays]
    rw [ih kept, List.append_assoc, List.singleton_append]
  | case2 a outside => rw [walk, if_neg outside, onward, if_neg outside, List.append_nil]

/-- Before there is a row at the counter, all rows are before it; the walk has one from the
landing on, if that is inside memory. -/
theorem walk_of_below (room : pc < Memory.space) (below : ∀ r ∈ listing, r.address < pc) :
    walk image pc a listing = listing ++ (leading image pc a ++
      if landing image pc a < Memory.space then onward image pc else []) := by
  induction a using landing.induct image pc generalizing listing with
  | case1 a before ih =>
    have inside : a < Memory.space := Nat.lt_trans before room
    have stays : resync pc a listing = (a, listing) := by
      simp [resync, Nat.not_lt_of_lt before]
    have next : ∀ r ∈ listing ++ [rowAt image a], r.address < pc := by
      intro r member
      rcases List.mem_append.mp member with old | new
      · exact below r old
      · rw [List.mem_singleton.mp new]
        exact before
    rw [walk, if_pos inside, leading, if_pos before, landing, if_pos before]
    simp only [stays]
    rw [ih next]
    simp
  | case2 a past =>
    have missing := listed_of_below below
    have kept : listing.filter (fun r => decide (r.address < pc)) = listing :=
      List.filter_eq_self.mpr fun r member => decide_eq_true (below r member)
    -- whether the walk is at the counter or past it, it goes on from there with the same rows
    have goes : resync pc a listing = (pc, listing) := by
      rcases Nat.lt_or_eq_of_le (Nat.le_of_not_lt past) with beyond | rfl
      · simp [resync, beyond, missing, kept]
      · simp [resync]
    rw [leading, if_neg past, landing, if_neg past, walk]
    by_cases inside : a < Memory.space
    · have found : listed pc (listing ++ [rowAt image pc]) = true := by
        simp [listed_append, listed_rowAt]
      have first : onward image pc = rowAt image pc :: onward image (reach image pc) := by
        rw [onward, if_pos room]
      rw [if_pos inside, if_pos inside]
      simp only [goes]
      rw [walk_of_listed found, first]
      simp
    · rw [if_neg inside, if_neg inside]
      simp

theorem address_leading : ∀ r ∈ leading image pc a, r.address < pc := by
  induction a using leading.induct image pc with
  | case1 a before ih =>
    rw [leading, if_pos before]
    exact List.forall_mem_cons.mpr ⟨before, ih⟩
  | case2 a past =>
    rw [leading, if_neg past]
    simp

theorem le_address_leading : ∀ r ∈ leading image pc a, a ≤ r.address := by
  induction a using leading.induct image pc with
  | case1 a before ih =>
    rw [leading, if_pos before]
    refine List.forall_mem_cons.mpr ⟨Nat.le_refl a, fun r member => ?_⟩
    exact Nat.le_trans (Nat.le_of_lt (lt_reach image a)) (ih r member)
  | case2 a past =>
    rw [leading, if_neg past]
    simp

/-- The end of the address space bounds the rows as a counter there would. -/
theorem onward_eq_leading (image : List UInt8) (a : Nat) :
    onward image a = leading image Memory.space a := by
  induction a using onward.induct image with
  | case1 a inside ih => rw [onward, if_pos inside, leading, if_pos inside, ih]
  | case2 a outside => rw [onward, if_neg outside, leading, if_neg outside]

theorem address_onward : ∀ r ∈ onward image a, a ≤ r.address := by
  rw [onward_eq_leading]
  exact le_address_leading

theorem overrun_of_landing (h : Boundary image a) (inside : a < Memory.space)
    (far : Memory.space ≤ landing image pc a) : Overrun image pc := by
  induction a using landing.induct image pc with
  | case1 a before ih =>
    rw [landing, if_pos before] at far
    by_cases leaves : Memory.space ≤ reach image a
    · exact ⟨a, h, before, leaves⟩
    · exact ih h.next (Nat.lt_of_not_le leaves) far
  | case2 a past =>
    rw [landing, if_neg past] at far
    omega

/-- The walk lands at the same place from every address that it comes to before the counter. -/
theorem landing_of_boundary (h : Boundary image a) (before : a < pc) :
    landing image pc 0 = landing image pc a := by
  induction h with
  | zero => rfl
  | @next a _ ih =>
    have earlier : a < pc := Nat.lt_trans (lt_reach image a) before
    have step : landing image pc a = landing image pc (reach image a) := by
      rw [landing, if_pos earlier]
    exact (ih earlier).trans step

/-- The walk leaves the address space before it has seen the counter. -/
theorem overrun_iff (room : pc < Memory.space) :
    Overrun image pc ↔ Memory.space ≤ landing image pc 0 := by
  constructor
  · rintro ⟨a, h, before, leaves⟩
    have past : ¬ reach image a < pc := by omega
    rw [landing_of_boundary h before, landing, if_pos before, landing, if_neg past]
    exact leaves
  · exact overrun_of_landing .zero (by decide)

/-- Only the last two addresses can be overrun: no row is wider than three. -/
theorem le_of_overrun (h : Overrun image pc) : Memory.space - 2 ≤ pc := by
  obtain ⟨a, -, before, leaves⟩ := h
  have narrow : (Disassembly.textAt image a).2 ≤ 3 := by
    unfold Disassembly.textAt
    split
    · exact Nat.zero_le 3
    · next it _ => exact it.width_le
  unfold reach Memory.space at leaves
  unfold Memory.space
  omega

theorem part_about {α : Type} (before after : List α) (x : α) {count : Nat}
    (some_rows : 0 < count) :
    ((before ++ x :: after).drop (before.length - count / 2)).take count =
      before.drop (before.length - count / 2) ++
        x :: after.take (count - min (count / 2) before.length - 1) := by
  have length : (before.drop (before.length - count / 2)).length =
      min (count / 2) before.length := by
    rw [List.length_drop]
    omega
  have skip : before.length - count / 2 ≤ before.length := Nat.sub_le _ _
  obtain ⟨more, enough⟩ : ∃ more, count - min (count / 2) before.length = more + 1 :=
    Nat.exists_eq_add_one.mpr (by omega)
  have few : (before.drop (before.length - count / 2)).length ≤ count := by omega
  rw [List.drop_append_of_le_length skip, List.take_append, List.take_of_length_le few, length,
    enough, List.take_succ_cons]
  rfl

theorem place_of_fresh {α : Type} {p : α → Bool} {before : List α} {x : α} (after : List α)
    (fresh : ∀ r ∈ before, p r = false) (hit : p x = true) :
    (before ++ x :: after).findIdx? p = some before.length := by
  have none_before : before.findIdx? p = none := List.findIdx?_eq_none_iff.mpr fresh
  rw [List.findIdx?_append, none_before, List.findIdx?_cons, if_pos hit]
  simp

theorem filter_window {α : Type} {p : α → Bool} {before after : List α} {x : α} {count : Nat}
    (some_rows : 0 < count) (fresh : ∀ r ∈ before, p r = false) (hit : p x = true)
    (single : ∀ r ∈ after, p r = false) :
    (((before ++ x :: after).drop
      (((before ++ x :: after).findIdx? p).getD 0 - count / 2)).take count).filter p = [x] := by
  have front : (before.drop (before.length - count / 2)).filter p = [] :=
    List.filter_eq_nil_iff.mpr fun r member => by simp [fresh r (List.mem_of_mem_drop member)]
  have back {more : Nat} : (after.take more).filter p = [] :=
    List.filter_eq_nil_iff.mpr fun r member => by simp [single r (List.mem_of_mem_take member)]
  rw [place_of_fresh after fresh hit, Option.getD_some, part_about before after x some_rows,
    List.filter_append, front, List.filter_cons_of_pos hit, back]
  rfl

theorem window_of_stays {count : Nat} (room : pc < Memory.space) (some_rows : 0 < count)
    (stays : ¬ Overrun image pc) :
    (window image pc count).filter (fun r => r.address == pc) = [rowAt image pc] := by
  have inside : landing image pc 0 < Memory.space :=
    Nat.lt_of_not_le (mt (overrun_iff room).mpr stays)
  have rows : walk image pc 0 [] =
      leading image pc 0 ++ rowAt image pc :: onward image (reach image pc) := by
    rw [walk_of_below room (by simp), if_pos inside, List.nil_append]
    congr 1
    rw [onward, if_pos room]
  unfold window
  rw [rows]
  apply filter_window some_rows
  · intro r member
    exact beq_false_of_ne (Nat.ne_of_lt (address_leading r member))
  · exact beq_self_eq_true pc
  · intro r member
    have later := address_onward r member
    have further := lt_reach image pc
    exact beq_false_of_ne (by omega)

theorem window_of_overrun (count : Nat) (room : pc < Memory.space) (leaves : Overrun image pc) :
    (window image pc count).filter (fun r => r.address == pc) = [] := by
  have outside : ¬ landing image pc 0 < Memory.space :=
    Nat.not_lt_of_le ((overrun_iff room).mp leaves)
  have rows : walk image pc 0 [] = leading image pc 0 := by
    rw [walk_of_below room (by simp), if_neg outside]
    simp
  rw [List.filter_eq_nil_iff]
  intro r member
  unfold window at member
  rw [rows] at member
  have below := address_leading r (List.mem_of_mem_drop (List.mem_of_mem_take member))
  simp [Nat.ne_of_lt below]

end

/-- The window marks the row of the counter and no other, except when a row that begins before
the counter ends with memory: then no row is marked at all. -/
theorem disassembly_marks_counter (d : Debugger) {count : Nat} (some_rows : 0 < count) :
    let image := d.machine.cpu.mem.bytes
    let marked := (d.disassembly count).filter Prod.snd
    (marked = [(rowAt image d.pc.toNat, true)] ↔ ¬ Overrun image d.pc.toNat) ∧
    (marked = [] ↔ Overrun image d.pc.toNat) ∧
    (Overrun image d.pc.toNat → Memory.space - 2 ≤ d.pc.toNat) := by
  intro image marked
  have room : d.pc.toNat < Memory.space := d.pc.toNat_lt
  have rows : marked = ((window image d.pc.toNat count).filter
      (fun r => r.address == d.pc.toNat)).map fun r =>
        ({ r with address := r.address.toUInt8.toNat }, r.address == d.pc.toNat) := by
    change (d.disassembly count).filter Prod.snd = _
    rw [disassembly, List.filter_map]
    rfl
  have found : ¬ Overrun image d.pc.toNat → marked = [(rowAt image d.pc.toNat, true)] := by
    intro stays
    rw [rows, window_of_stays room some_rows stays]
    simp [rowAt]
  have lost : Overrun image d.pc.toNat → marked = [] := by
    intro leaves
    rw [rows, window_of_overrun count room leaves]
    rfl
  refine ⟨⟨?_, found⟩, ⟨?_, lost⟩, le_of_overrun⟩
  · intro shown leaves
    rw [lost leaves] at shown
    cases shown
  · intro shown
    refine Classical.byContradiction fun stays => ?_
    rw [found stays] at shown
    cases shown

def toTheEdge : List UInt8 := List.replicate 254 0 ++ [0x47]

theorem overrun_toTheEdge : Overrun (toTheEdge ++ [0]) 255 := by
  have step : ∀ n < 254, reach (toTheEdge ++ [0]) n = n + 1 := by
    intro n small
    obtain ⟨more, left⟩ : ∃ more, 254 - n = more + 1 :=
      Nat.exists_eq_add_one.mpr (Nat.sub_pos_of_lt small)
    have rest : (toTheEdge ++ [0]).drop n = 0 :: (List.replicate more 0 ++ [0x47, 0]) := by
      have inside : n ≤ (List.replicate 254 (0 : UInt8)).length := by
        rw [List.length_replicate]
        omega
      rw [toTheEdge, List.append_assoc, List.drop_append_of_le_length inside, List.drop_replicate,
        left]
      rfl
    have narrow : (Disassembly.textAt (toTheEdge ++ [0]) n).2 = 1 := by
      rw [Disassembly.textAt, Disassembly.item?, rest]
      rfl
    rw [reach, narrow]
    rfl
  have reached : ∀ n ≤ 254, Boundary (toTheEdge ++ [0]) n := by
    intro n
    induction n with
    | zero => exact fun _ => .zero
    | succ n ih =>
      intro small
      rw [← step n small]
      exact (ih (Nat.le_of_lt small)).next
  exact ⟨254, reached 254 (Nat.le_refl _), by decide, by decide⟩

/-- A new debugger marks the first cell, but with the counter on the last cell, which is the
operand of an instruction, it marks nothing. -/
theorem disassembly_at_the_edge :
    let d := (start toTheEdge).jump 255
    0 < 1 ∧ ((start toTheEdge).disassembly 1).filter Prod.snd =
        [(⟨0, "DB 0b00000000".toList⟩, true)] ∧
      d.machine.cpu.mem.bytes = toTheEdge ++ [0] ∧ (d.disassembly 1).filter Prod.snd = [] := by
  intro d
  have memory : d.machine.cpu.mem.bytes = toTheEdge ++ [0] := by decide +kernel
  have counter : d.pc.toNat = 255 := rfl
  have leaves := overrun_toTheEdge
  rw [← memory, ← counter] at leaves
  have stays : ¬ Overrun (start toTheEdge).machine.cpu.mem.bytes (start toTheEdge).pc.toNat := by
    have origin : (start toTheEdge).pc.toNat = 0 := by decide +kernel
    rw [origin]
    rintro ⟨a, -, before, -⟩
    exact Nat.not_lt_zero a before
  have first : rowAt (start toTheEdge).machine.cpu.mem.bytes (start toTheEdge).pc.toNat =
      ⟨0, "DB 0b00000000".toList⟩ := by decide +kernel
  have shown := (disassembly_marks_counter (start toTheEdge) Nat.one_pos).1.mpr stays
  rw [first] at shown
  exact ⟨Nat.one_pos, shown, memory, (disassembly_marks_counter d Nat.one_pos).2.1.mpr leaves⟩

end Ls8.Debugger
