import Ls8.Disassembly
import Ls8.Memory

/-! The rows of a disassembly about the program counter. Rows begin at address zero. A walk that
has stepped over the counter gives up the rows past it and goes on at the counter. -/
namespace Ls8.Debugger

structure WindowRow where
  address : Nat
  text : List Char
  deriving DecidableEq

/-- How far the row at an address reaches; a row without bytes still takes one address. -/
def reach (image : List UInt8) (a : Nat) : Nat := a + max 1 (Disassembly.textAt image a).2

def rowAt (image : List UInt8) (a : Nat) : WindowRow := ⟨a, (Disassembly.textAt image a).1⟩

theorem lt_reach (image : List UInt8) (a : Nat) : a < reach image a := by
  unfold reach
  omega

def listed (pc : Nat) (listing : List WindowRow) : Bool := listing.any fun r => r.address == pc

def resync (pc a : Nat) (listing : List WindowRow) : Nat × List WindowRow :=
  if pc < a ∧ listed pc listing = false then (pc, listing.filter fun r => decide (r.address < pc))
  else (a, listing)

/-- What the walk has still to go. It goes back at most once, to a row that it did not have. -/
def ahead (pc a : Nat) (listing : List WindowRow) : Nat :=
  (if listed pc listing then 0 else Memory.space + 1) + (Memory.space - a)

theorem ahead_resync (image : List UInt8) (pc : Nat) {a : Nat} {listing : List WindowRow}
    (inside : a < Memory.space) :
    ahead pc (reach image (resync pc a listing).1)
      ((resync pc a listing).2 ++ [rowAt image (resync pc a listing).1]) < ahead pc a listing := by
  unfold resync
  split
  · next missed =>
    have found : listed pc (listing.filter (fun r => decide (r.address < pc)) ++
        [rowAt image pc]) = true := by simp [listed, rowAt]
    simp only [ahead, found, missed.2, if_true, Bool.false_eq_true, if_false]
    omega
  · have further := lt_reach image a
    cases had : listed pc listing with
    | true =>
      have kept : listed pc (listing ++ [rowAt image a]) = true := by
        simp [listed] at had ⊢
        exact .inl had
      simp only [ahead, had, kept, if_true]
      omega
    | false =>
      simp only [ahead, had, Bool.false_eq_true, if_false]
      split <;> omega

def walk (image : List UInt8) (pc a : Nat) (listing : List WindowRow) : List WindowRow :=
  if a < Memory.space then
    let next := resync pc a listing
    walk image pc (reach image next.1) (next.2 ++ [rowAt image next.1])
  else listing
  termination_by ahead pc a listing
  decreasing_by exact ahead_resync image pc ‹_›

/-- At most `count` rows; half of them stand before the counter if there are so many. -/
def window (image : List UInt8) (pc count : Nat) : List WindowRow :=
  let all := walk image pc 0 []
  let current := (all.findIdx? fun r => r.address == pc).getD 0
  (all.drop (current - count / 2)).take count

end Ls8.Debugger
