import Ls8.Proofs.Debugger.Window

/-! How the rows of the window lie in memory. Each begins where the one before it ends, except at
one place at most, where the walk has gone back to the counter; and the window is the part of all
rows that is about the counter. -/
namespace Ls8.Debugger

def width (image : List UInt8) (a : Nat) : Nat := (Disassembly.textAt image a).2

def Adjoins (image : List UInt8) (r s : WindowRow) : Prop :=
  s.address = r.address + width image r.address

/-- A row begins at the counter, which stands inside the row before it. -/
def Resumes (image : List UInt8) (pc : Nat) (r s : WindowRow) : Prop :=
  s.address = pc ∧ r.address < pc ∧ pc < r.address + width image r.address

/-- Two runs of adjoining rows, of which the second may resume at the counter. -/
def Tiled (image : List UInt8) (pc : Nat) (rows : List WindowRow) : Prop :=
  ∃ front back, rows = front ++ back ∧
    front.IsChain (Adjoins image) ∧ back.IsChain (Adjoins image) ∧
    ∀ r ∈ front.getLast?, ∀ s ∈ back.head?, Adjoins image r s ∨ Resumes image pc r s

section

variable {image : List UInt8} {pc a : Nat} {rows : List WindowRow}

theorem Tiled.drop (h : Tiled image pc rows) (n : Nat) : Tiled image pc (rows.drop n) := by
  obtain ⟨front, back, rfl, left, right, joint⟩ := h
  refine ⟨front.drop n, back.drop (n - front.length), List.drop_append, left.drop n,
    right.drop _, ?_⟩
  intro r last s first
  rw [List.getLast?_drop] at last
  split at last
  · cases last
  · next inside =>
    have whole : n - front.length = 0 := by omega
    rw [whole, List.drop_zero] at first
    exact joint r last s first

theorem Tiled.take (h : Tiled image pc rows) (n : Nat) : Tiled image pc (rows.take n) := by
  obtain ⟨front, back, rfl, left, right, joint⟩ := h
  refine ⟨front.take n, back.take (n - front.length), List.take_append, left.take n,
    right.take _, ?_⟩
  intro r last s first
  rw [List.head?_take] at first
  split at first
  · cases first
  · next some_left =>
    have whole : front.length ≤ n := by omega
    rw [List.take_of_length_le whole] at last
    exact joint r last s first

theorem reach_of_inside (inside : a < image.length) : reach image a = a + width image a := by
  have some_byte : 0 < width image a := Disassembly.width_textAt_pos inside
  unfold reach
  rw [← width]
  omega

theorem head_leading : ∀ r ∈ (leading image pc a).head?, r = rowAt image a := by
  intro r first
  rw [leading] at first
  split at first
  · exact (Option.some.inj first).symm
  · cases first

theorem rowAt_of_mem_leading : ∀ r ∈ leading image pc a, r = rowAt image r.address := by
  induction a using leading.induct image pc with
  | case1 a before ih =>
    rw [leading, if_pos before]
    exact List.forall_mem_cons.mpr ⟨rfl, ih⟩
  | case2 a past =>
    rw [leading, if_neg past]
    simp

theorem sorted_leading : (leading image pc a).Pairwise fun r s => r.address < s.address := by
  induction a using leading.induct image pc with
  | case1 a before ih =>
    rw [leading, if_pos before]
    refine List.pairwise_cons.mpr ⟨fun r member => ?_, ih⟩
    exact Nat.lt_of_lt_of_le (lt_reach image a) (le_address_leading r member)
  | case2 a past =>
    rw [leading, if_neg past]
    exact List.Pairwise.nil

theorem chain_leading (inside : pc ≤ image.length) :
    (leading image pc a).IsChain (Adjoins image) := by
  induction a using leading.induct image pc with
  | case1 a before ih =>
    rw [leading, if_pos before]
    refine List.isChain_cons.mpr ⟨fun r first => ?_, ih⟩
    rw [head_leading r first]
    exact reach_of_inside (Nat.lt_of_lt_of_le before inside)
  | case2 a past =>
    rw [leading, if_neg past]
    exact List.isChain_nil

theorem le_reach_of_last : ∀ r ∈ (leading image pc a).getLast?, pc ≤ reach image r.address := by
  induction a using leading.induct image pc with
  | case1 a before ih =>
    rw [leading, if_pos before]
    intro r last
    by_cases more : reach image a < pc
    · have some_row : leading image pc (reach image a) ≠ [] := by
        rw [leading, if_pos more]
        exact List.cons_ne_nil _ _
      rw [List.getLast?_cons_of_ne_nil some_row] at last
      exact ih r last
    · rw [leading, if_neg more, List.getLast?_singleton] at last
      cases last
      exact Nat.le_of_not_lt more
  | case2 a past =>
    rw [leading, if_neg past]
    simp

/-- All rows are those that begin before the counter and, unless the walk is over before it has
come to the counter, those from the counter on. -/
theorem walk_eq (image : List UInt8) (room : pc < Memory.space) : ∃ back, walk image pc 0 [] =
    leading image pc 0 ++ back ∧ (back = [] ∨ back = leading image Memory.space pc) := by
  refine ⟨_, walk_of_below room (by simp), ?_⟩
  rw [← onward_eq_leading]
  split
  · exact .inr rfl
  · exact .inl rfl

theorem rowAt_of_mem_walk (room : pc < Memory.space) :
    ∀ r ∈ walk image pc 0 [], r.address < Memory.space ∧ r = rowAt image r.address := by
  obtain ⟨back, rows, rfl | rfl⟩ := walk_eq image room <;> rw [rows] <;> intro r member
  · rw [List.append_nil] at member
    exact ⟨Nat.lt_trans (address_leading r member) room, rowAt_of_mem_leading r member⟩
  · rcases List.mem_append.mp member with before | after
    · exact ⟨Nat.lt_trans (address_leading r before) room, rowAt_of_mem_leading r before⟩
    · exact ⟨address_leading r after, rowAt_of_mem_leading r after⟩

theorem sorted_walk (image : List UInt8) (room : pc < Memory.space) :
    (walk image pc 0 []).Pairwise fun r s => r.address < s.address := by
  obtain ⟨back, rows, rfl | rfl⟩ := walk_eq image room <;> rw [rows]
  · rw [List.append_nil]
    exact sorted_leading
  · refine List.pairwise_append.mpr ⟨sorted_leading, sorted_leading, fun r before s after => ?_⟩
    exact Nat.lt_of_lt_of_le (address_leading r before) (le_address_leading s after)

theorem tiled_walk (full : image.length = Memory.space) (room : pc < Memory.space) :
    Tiled image pc (walk image pc 0 []) := by
  have front : (leading image pc 0).IsChain (Adjoins image) :=
    chain_leading (by rw [full]; exact Nat.le_of_lt room)
  obtain ⟨back, rows, rfl | rfl⟩ := walk_eq image room <;> rw [rows]
  · exact ⟨_, [], rfl, front, List.isChain_nil, by simp⟩
  · refine ⟨_, _, rfl, front, chain_leading (Nat.le_of_eq full.symm), fun r last s first => ?_⟩
    have before := address_leading r (List.mem_of_getLast? last)
    have ends := le_reach_of_last r last
    rw [reach_of_inside (by omega)] at ends
    rw [head_leading s first]
    rcases Nat.lt_or_eq_of_le ends with beyond | adjoins
    · exact .inr ⟨rfl, before, beyond⟩
    · exact .inl adjoins

theorem window_of_walk {count : Nat} {earlier later : List WindowRow} {r : WindowRow}
    (room : pc < Memory.space) (some_rows : 0 < count)
    (split : walk image pc 0 [] = earlier ++ r :: later) (current : r.address = pc) :
    ∃ before after, window image pc count = before ++ r :: after ∧
      before.length = min (count / 2) earlier.length := by
  have sorted := sorted_walk image room
  rw [split] at sorted
  have fresh : ∀ q ∈ earlier, (q.address == pc) = false := by
    intro q member
    have below := (List.pairwise_append.mp sorted).2.2 q member r List.mem_cons_self
    exact beq_false_of_ne (by omega)
  refine ⟨earlier.drop (earlier.length - count / 2),
    later.take (count - min (count / 2) earlier.length - 1), ?_, ?_⟩
  · rw [window, split, place_of_fresh later fresh (beq_iff_eq.mpr current), Option.getD_some]
    exact part_about earlier later r some_rows
  · rw [List.length_drop]
    omega

end

/-- The rows that are shown, in memory of full size: their addresses are bytes and increase, each
has the text of what is there, and they lie side by side except that once a row inside the one
before it may begin at the counter. The row of the counter, if there is one, has half of the rows
before it, or all there are, and there are as many rows as asked for unless there are no more. -/
theorem disassembly_tiles (d : Debugger) (count : Nat)
    (full : d.machine.cpu.mem.cells.size = Memory.space) :
    let image := d.machine.cpu.mem.bytes
    let listing := walk image d.pc.toNat 0 []
    let shown := (d.disassembly count).map Prod.fst
    shown = window image d.pc.toNat count ∧
    shown.length ≤ count ∧
    shown.Pairwise (fun r s => r.address < s.address) ∧
    (∀ r ∈ shown, r.address ≤ 255 ∧ r.text = (Disassembly.textAt image r.address).1) ∧
    Tiled image d.pc.toNat shown ∧
    (0 < count → ∀ earlier r later, listing = earlier ++ r :: later → r.address = d.pc.toNat →
      (∃ before after, shown = before ++ r :: after ∧
        before.length = min (count / 2) earlier.length) ∧
      (shown.length = count ∨ shown <:+ listing)) := by
  intro image listing shown
  have room : d.pc.toNat < Memory.space := d.pc.toNat_lt
  have size : image.length = Memory.space := Array.length_toList.trans full
  have part : (window image d.pc.toNat count).Sublist listing :=
    (List.take_sublist _ _).trans (List.drop_sublist _ _)
  -- The addresses are below 256, so they are shown as they are.
  have same : shown = window image d.pc.toNat count := by
    have each : ∀ r ∈ window image d.pc.toNat count,
        ({ r with address := r.address.toUInt8.toNat } : WindowRow) = id r := by
      intro r member
      have inside : r.address < 256 := (rowAt_of_mem_walk room r (part.mem member)).1
      have byte : r.address.toUInt8.toNat = r.address := by simpa using inside
      rw [byte]
      rfl
    change (d.disassembly count).map Prod.fst = _
    rw [disassembly, List.map_map]
    exact (List.map_congr_left each).trans (List.map_id _)
  rw [same]
  refine ⟨rfl, List.length_take_le _ _, (sorted_walk image room).sublist part, fun r member => ?_,
    ((tiled_walk size room).drop _).take _, fun some_rows earlier r later split current => ?_⟩
  · obtain ⟨inside, row⟩ := rowAt_of_mem_walk room r (part.mem member)
    exact ⟨Nat.le_of_lt_succ inside, congrArg WindowRow.text row⟩
  · refine ⟨window_of_walk room some_rows split current, ?_⟩
    unfold window
    rw [List.length_take]
    rcases Nat.le_total count (listing.drop (((listing.findIdx? fun r =>
      r.address == d.pc.toNat).getD 0) - count / 2)).length with enough | few
    · exact .inl (Nat.min_eq_left enough)
    · rw [List.take_of_length_le few]
      exact .inr (List.drop_suffix _ _)

/-- The counter on the last byte of an instruction of three: the walk goes back to it, and its row
comes second in a window of three. -/
theorem disassembly_tiles_resumed :
    let d := (start [0x82, 0, 8, 1]).jump 2
    d.machine.cpu.mem.cells.size = Memory.space ∧
    ∃ before after, (d.disassembly 3).map Prod.fst =
      before ++ ⟨2, "DB 0b00001000".toList⟩ :: after ∧ before.length = 1 := by
  intro d
  have full : d.machine.cpu.mem.cells.size = Memory.space := by decide +kernel
  have counter : d.pc.toNat = 2 := rfl
  have row : rowAt d.machine.cpu.mem.bytes 2 = ⟨2, "DB 0b00001000".toList⟩ := by decide +kernel
  have past : reach d.machine.cpu.mem.bytes 0 = 3 := by decide +kernel
  have front : leading d.machine.cpu.mem.bytes 2 0 = [rowAt d.machine.cpu.mem.bytes 0] := by
    rw [leading, if_pos (by decide), past, leading, if_neg (by decide)]
  have lands : landing d.machine.cpu.mem.bytes 2 0 = 3 := by
    rw [landing, if_pos (by decide), past, landing, if_neg (by decide)]
  have rows : walk d.machine.cpu.mem.bytes d.pc.toNat 0 [] =
      [rowAt d.machine.cpu.mem.bytes 0] ++ ⟨2, "DB 0b00001000".toList⟩ ::
        onward d.machine.cpu.mem.bytes (reach d.machine.cpu.mem.bytes 2) := by
    rw [counter, walk_of_below (by decide) (by simp), front, lands, if_pos (by decide), onward,
      if_pos (by decide), row]
    rfl
  have tiles := (disassembly_tiles d 3 full).2.2.2.2.2
  exact ⟨full, (tiles (by decide) _ _ _ rows counter.symm).1⟩

end Ls8.Debugger
