import Ls8.Proofs.Cells

/-! A memory with all of its cells is a byte at every address. Whatever accesses are made in turn to
a new one, each is answered as that map answers it, and one that is refused leaves the map as it
is. -/
namespace Ls8

open Memory (space)

abbrev AddressMap : Type := Fin space → UInt8

inductive Access where
  | read (a : Nat)
  | write (a : Nat) (b : UInt8)
  | clear
  | load (start : Nat) (program : List UInt8)
  | dump (start count : Nat)
  deriving DecidableEq

namespace Access

inductive Answer where
  | done
  | byte (b : UInt8)
  | listed (cells : List (Nat × UInt8))
  | refused (e : MemoryError)
  | broken
  deriving DecidableEq

def answers (serve : σ → Access → Answer × σ) (s : σ) : List Access → List Answer × σ
  | [] => ([], s)
  | r :: rs =>
    let rest := answers serve (serve s r).2 rs
    ((serve s r).1 :: rest.1, rest.2)

def Refused : Access → MemoryError → Prop
  | .read a, e => space ≤ a ∧ e = .noCell a
  | .write a _, e => space ≤ a ∧ e = .noCell a
  | .load start program, e =>
    (space < start ∨ space < start + program.length) ∧
      e = .tooLarge program.length (space - start)
  | .clear, _ => False
  | .dump _ _, _ => False

end Access

open Access (answers Answer)

namespace AddressMap

def zero : AddressMap := fun _ => 0

def overwrite (f : AddressMap) (start : Nat) (program : List UInt8) : AddressMap :=
  fun i => if start ≤ i.val then program[i.val - start]?.getD (f i) else f i

def listed (f : AddressMap) (start count : Nat) : List (Nat × UInt8) :=
  let asked := (List.finRange space).filter fun i => start ≤ i.val ∧ i.val < start + count
  asked.map fun i => (i.val, f i)

def serve (f : AddressMap) : Access → Answer × AddressMap
  | .read a => if h : a < space then (.byte (f ⟨a, h⟩), f) else (.refused (.noCell a), f)
  | .write a b =>
    if h : a < space then (.done, Function.update f ⟨a, h⟩ b) else (.refused (.noCell a), f)
  | .clear => (.done, zero)
  | .load start program =>
    if start + program.length ≤ space then (.done, f.overwrite start program)
    else (.refused (.tooLarge program.length (space - start)), f)
  | .dump start count => (.listed (f.listed start count), f)

end AddressMap

namespace Memory

def ofMap (f : Fin n → UInt8) : Memory := ⟨Array.ofFn f⟩

def heard : Except MemoryError UInt8 → Answer
  | .ok b => .byte b
  | .error e => .refused e

def changed (m : Memory) : Option (Except MemoryError Memory) → Answer × Memory
  | some (.ok m') => (.done, m')
  | some (.error e) => (.refused e, m)
  | none => (.broken, m)

def serve (m : Memory) : Access → Answer × Memory
  | .read a => (heard (m.read a), m)
  | .write a b => m.changed (some (m.write a b))
  | .clear => (.done, m.clear)
  | .load start program => m.changed (m.load start program)
  | .dump start count => ((m.dump start count).elim .broken .listed, m)

theorem size_ofMap (f : Fin n → UInt8) : (ofMap f).cells.size = n := Array.size_ofFn

theorem cell_ofMap (f : Fin n → UInt8) (a : Nat) :
    (ofMap f).cells[a]? = if h : a < n then some (f ⟨a, h⟩) else none :=
  Array.getElem?_ofFn

theorem eq_ofMap {m : Memory} {f : Fin n → UInt8} (size : m.cells.size = n)
    (each : ∀ i : Fin n, m.cells[i.val]? = some (f i)) : m = ofMap f := by
  obtain ⟨cells⟩ := m
  congr 1
  apply Array.ext_getElem?
  intro a
  rw [Array.getElem?_ofFn]
  split
  · next inside => exact each ⟨a, inside⟩
  · next outside => exact Array.getElem?_eq_none (size ▸ Nat.le_of_not_lt outside)

theorem zero_eq_ofMap : zero = ofMap AddressMap.zero := by
  apply eq_ofMap
  · exact Array.size_replicate
  · intro i
    rw [zero, Array.getElem?_replicate, if_pos i.isLt, AddressMap.zero]

theorem read_ofMap (f : Fin n → UInt8) (a : Nat) :
    (ofMap f).read a = if h : a < n then .ok (f ⟨a, h⟩) else .error (.noCell a) := by
  unfold read
  by_cases h : a < n <;> simp only [cell_ofMap, h, dite_true, dite_false]

theorem write_ofMap (f : AddressMap) (a : Nat) (b : UInt8) :
    (ofMap f).write a b =
      if h : a < space then .ok (ofMap (Function.update f ⟨a, h⟩ b)) else .error (.noCell a) := by
  unfold write
  rw [size_ofMap]
  split
  · next inside =>
    refine congrArg Except.ok (eq_ofMap ?_ ?_)
    · rw [Array.size_setIfInBounds, size_ofMap]
    · intro i
      by_cases here : i.val = a
      · obtain rfl : i = ⟨a, inside⟩ := Fin.ext here
        rw [Function.update_self, Array.getElem?_setIfInBounds_self_of_lt (by rwa [size_ofMap])]
      · have other : i ≠ ⟨a, inside⟩ := fun same => here (congrArg Fin.val same)
        rw [Array.getElem?_setIfInBounds_ne (Ne.symm here), cell_ofMap, dif_pos i.isLt,
          Function.update_of_ne other]
  · rfl

theorem clear_ofMap (f : AddressMap) : (ofMap f).clear = ofMap AddressMap.zero := by
  rw [clear, size_ofMap]
  exact zero_eq_ofMap

theorem getElem?_spliced {start : Nat} {cells : List UInt8} (room : start ≤ cells.length)
    (program : List UInt8) (a : Nat) :
    (cells.take start ++ program ++ cells.drop (start + program.length))[a]? =
      if start ≤ a then program[a - start]?.or cells[a]? else cells[a]? := by
  have before : (cells.take start).length = start := List.length_take_of_le room
  rw [List.append_assoc]
  split
  · next reached =>
    rw [List.getElem?_append_right (by omega), before]
    by_cases inside : a - start < program.length
    · rw [List.getElem?_append_left inside, List.getElem?_eq_getElem inside, Option.some_or]
    · rw [List.getElem?_append_right (by omega), List.getElem?_drop,
        List.getElem?_eq_none (Nat.le_of_not_lt inside), Option.none_or]
      congr 1
      omega
  · next early => rw [List.getElem?_append_left (by omega), List.getElem?_take_of_lt (by omega)]

theorem load_ofMap (f : AddressMap) (start : Nat) (program : List UInt8) :
    (ofMap f).load start program =
      some (if start + program.length ≤ space then .ok (ofMap (f.overwrite start program))
        else .error (.tooLarge program.length (space - start))) := by
  split
  · next fits =>
    have size : (ofMap f).bytes.length = space := by
      rw [bytes, Array.length_toList, size_ofMap]
    rw [load_of_fits fits (by rwa [size_ofMap])]
    refine congrArg (some ∘ Except.ok) (eq_ofMap ?_ ?_)
    · simp only [List.size_toArray, List.length_append, List.length_take, List.length_drop, size]
      omega
    · intro i
      have cell : (ofMap f).bytes[i.val]? = some (f i) := by
        rw [bytes, Array.getElem?_toList, cell_ofMap, dif_pos i.isLt]
      rw [List.getElem?_toArray, getElem?_spliced (by omega), cell, Option.or_some,
        AddressMap.overwrite]
      split <;> rfl
  · next large => exact load_of_large (Nat.lt_of_not_le large)

theorem filter_range (s c n : Nat) :
    (List.range n).filter (fun a => s ≤ a ∧ a < s + c) = List.range' s (min (s + c) n - s) := by
  induction n with
  | zero => simp
  | succ n ih =>
    rw [List.range_succ, List.filter_append, ih]
    by_cases asked : s ≤ n ∧ n < s + c
    · have longer : min (s + c) (n + 1) - s = min (s + c) n - s + 1 := by omega
      have last : s + (min (s + c) n - s) = n := by omega
      rw [longer, List.range'_1_concat, last]
      simp [asked]
    · have same : min (s + c) (n + 1) - s = min (s + c) n - s := by omega
      simp [same, asked]

theorem dump_ofMap (f : AddressMap) (start count : Nat) :
    (ofMap f).dump start count = some (f.listed start count) := by
  rw [dump, ← filter_range, ← List.map_coe_finRange_eq_range, List.filter_map]
  refine mapM_each fun i _ => ?_
  rw [cell_ofMap, dif_pos i.isLt, Option.map_some]

theorem serve_ofMap (f : AddressMap) (r : Access) :
    (ofMap f).serve r = ((f.serve r).1, ofMap (f.serve r).2) := by
  cases r with
  | read a =>
    simp only [serve, AddressMap.serve, read_ofMap]
    split <;> rfl
  | write a b =>
    simp only [serve, AddressMap.serve, write_ofMap]
    split <;> rfl
  | clear => simp only [serve, AddressMap.serve, clear_ofMap]
  | load start program =>
    simp only [serve, AddressMap.serve, load_ofMap]
    split <;> rfl
  | dump start count => simp only [serve, AddressMap.serve, dump_ofMap, Option.elim_some]

theorem answers_ofMap (f : AddressMap) (rs : List Access) :
    answers serve (ofMap f) rs =
      ((answers AddressMap.serve f rs).1, ofMap (answers AddressMap.serve f rs).2) := by
  induction rs generalizing f with
  | nil => rfl
  | cons r rs ih => simp only [answers, serve_ofMap, ih]

end Memory

namespace AddressMap

variable {f : AddressMap}

theorem serve_refused {r : Access} {e : MemoryError} :
    (f.serve r).1 = .refused e ↔ r.Refused e := by
  cases r with
  | read a | write a b =>
    rw [serve, Access.Refused, ← Nat.not_lt]
    split
    · next inside => exact iff_of_false nofun fun out => out.1 inside
    · next outside => exact ⟨fun | rfl => ⟨outside, rfl⟩, fun | ⟨_, rfl⟩ => rfl⟩
  | load start program =>
    rw [serve, Access.Refused]
    split
    · next fits => exact iff_of_false nofun fun out => by omega
    · next large => exact ⟨fun | rfl => ⟨by omega, rfl⟩, fun | ⟨_, rfl⟩ => rfl⟩
  | clear | dump start count => exact iff_of_false nofun id

theorem serve_unchanged {r : Access} {e : MemoryError} (refused : (f.serve r).1 = .refused e) :
    (f.serve r).2 = f := by
  cases r with
  | clear | dump start count => cases refused
  | read a | write a b | load start program =>
    rw [serve] at refused ⊢
    split at refused
    · cases refused
    · next out => simp only [out, dite_false, if_false]

theorem mem_listed {start count a : Nat} {b : UInt8} :
    (a, b) ∈ f.listed start count ↔
      start ≤ a ∧ a < start + count ∧ ∃ h : a < space, f ⟨a, h⟩ = b := by
  simp only [listed, List.mem_map, List.mem_filter, List.mem_finRange, true_and, Prod.mk.injEq,
    decide_eq_true_eq]
  constructor
  · rintro ⟨i, ⟨above, below⟩, rfl, rfl⟩
    exact ⟨above, below, i.isLt, rfl⟩
  · rintro ⟨above, below, inside, rfl⟩
    exact ⟨⟨a, inside⟩, ⟨above, below⟩, rfl, rfl⟩

theorem listed_increasing (start count : Nat) :
    (f.listed start count).Pairwise fun c c' => c.1 < c'.1 := by
  rw [listed, List.pairwise_map]
  exact (List.pairwise_lt_finRange space).filter _

end AddressMap

theorem read_loaded {f : AddressMap} {start : Nat} {program : List UInt8}
    (fits : start + program.length ≤ space) (a : Nat) :
    ((Memory.ofMap f).serve (.load start program)).2.read a =
      if start ≤ a then program[a - start]?.elim ((Memory.ofMap f).read a) .ok
      else (Memory.ofMap f).read a := by
  rw [Memory.serve_ofMap, AddressMap.serve, if_pos fits, Memory.read_ofMap, Memory.read_ofMap]
  by_cases inside : a < space
  · simp only [inside, dite_true, AddressMap.overwrite]
    split
    · cases program[a - start]? <;> rfl
    · rfl
  · have past : program[a - start]? = none := List.getElem?_eq_none (by omega)
    simp only [inside, dite_false, past, Option.elim_none, ite_self]

/-- Addresses and counts are any numbers here. An end that is counted in 64 bits and stops at the
largest of them is the same end. -/
theorem memory_refines_map (rs : List Access) :
    let m := (answers Memory.serve Memory.zero rs).2
    let f := (answers AddressMap.serve AddressMap.zero rs).2
    (answers Memory.serve Memory.zero rs).1 = (answers AddressMap.serve AddressMap.zero rs).1 ∧
      (∀ a, m.read a = if h : a < space then .ok (f ⟨a, h⟩) else .error (.noCell a)) ∧
      (∀ r e, (m.serve r).1 = .refused e ↔ r.Refused e) ∧
      (∀ r e, r.Refused e → (m.serve r).2 = m) ∧
      (∀ start program, start + program.length ≤ space → ∀ a,
        (m.serve (.load start program)).2.read a =
          if start ≤ a then program[a - start]?.elim (m.read a) .ok else m.read a) ∧
      (∀ start count, ∃ cells, m.dump start count = some cells ∧
        (cells.Pairwise fun c c' => c.1 < c'.1) ∧
        ∀ a b, (a, b) ∈ cells ↔ start ≤ a ∧ a < start + count ∧ m.read a = .ok b) ∧
      ∀ start count : UInt64, min (Machine.saturate start count).toNat space =
        min (start.toNat + count.toNat) space := by
  intro m f
  have same : answers Memory.serve Memory.zero rs =
      ((answers AddressMap.serve AddressMap.zero rs).1, Memory.ofMap f) := by
    rw [Memory.zero_eq_ofMap, Memory.answers_ofMap]
  have reached : m = Memory.ofMap f := by
    change (answers Memory.serve Memory.zero rs).2 = _
    rw [same]
  clear_value m f
  subst reached
  refine ⟨congrArg Prod.fst same, Memory.read_ofMap f, fun r e => ?_, fun r e refused => ?_,
    fun start program fits => read_loaded fits,
    fun start count => ⟨f.listed start count, Memory.dump_ofMap f start count,
      AddressMap.listed_increasing start count, fun a b => ?_⟩, fun start count => ?_⟩
  · rw [Memory.serve_ofMap]
    exact AddressMap.serve_refused
  · rw [Memory.serve_ofMap, AddressMap.serve_unchanged (AddressMap.serve_refused.mpr refused)]
  · rw [AddressMap.mem_listed, Memory.read_ofMap]
    by_cases inside : a < space <;> simp [inside]
  · have last : space ≤ UInt64.size - 1 := by decide
    rw [Machine.toNat_saturate]
    omega

example : (answers Memory.serve Memory.zero
    [.load 256 [], .load 255 [1, 2], .write 255 7, .dump 254 9, .write 256 1]).1 =
      [.done, .refused (.tooLarge 2 1), .done, .listed [(254, 0), (255, 7)],
        .refused (.noCell 256)] := by
  decide +kernel

end Ls8
