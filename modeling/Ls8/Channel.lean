/-! Where a program prints. Programs print digits and line ends only, so that one character
is one byte. A channel may have room for a limited number of them. -/
namespace Ls8

structure Channel where
  printed : String
  /-- How many more characters fit; `none` is no limit. -/
  room : Option Nat
  deriving DecidableEq

namespace Channel

def endless : Channel := ⟨"", none⟩

def limited (room : Nat) : Channel := ⟨"", some room⟩

def fits (out : Channel) (s : List Char) : Bool := out.room.all (s.length ≤ ·)

def put (out : Channel) (s : List Char) : Channel :=
  match out.room with
  | none => { out with printed := out.printed ++ String.ofList s }
  | some n => ⟨out.printed ++ String.ofList (s.take n), some (n - s.length)⟩

theorem put_put (out : Channel) (s t : List Char) : (out.put s).put t = out.put (s ++ t) := by
  cases h : out.room with
  | none => simp [put, h, String.append_assoc]
  | some n =>
    simp only [put, h, List.take_append, List.length_append, String.ofList_append,
      String.append_assoc]
    congr 2
    omega

end Channel
end Ls8
