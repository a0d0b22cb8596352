/-! Numbers as text. Reading takes ASCII digits only and at least one of them; writing gives
no leading zeros unless a width asks for them. -/
namespace Ls8.Text

/-- The value of a digit in a radix up to sixteen; letters count in either case. -/
def digit? (radix : Nat) (c : Char) : Option Nat :=
  let value :=
    if '0' ≤ c ∧ c ≤ '9' then some (c.toNat - '0'.toNat)
    else if 'a' ≤ c ∧ c ≤ 'f' then some (c.toNat - 'a'.toNat + 10)
    else if 'A' ≤ c ∧ c ≤ 'F' then some (c.toNat - 'A'.toNat + 10)
    else none
  value.filter (· < radix)

def natural? (radix : Nat) (s : List Char) : Option Nat :=
  if s.isEmpty then none
  else s.foldlM (fun n c => (digit? radix c).map (radix * n + ·)) 0

def integer? (radix : Nat) : List Char → Option Int
  | '-' :: s => (natural? radix s).map fun n => -(n : Int)
  | '+' :: s => (natural? radix s).map Int.ofNat
  | s => (natural? radix s).map Int.ofNat

def below? (bound radix : Nat) : List Char → Option Nat
  | '+' :: s => (natural? radix s).filter (· < bound)
  | s => (natural? radix s).filter (· < bound)

def word64? (radix : Nat) (s : List Char) : Option Int :=
  (integer? radix s).filter fun v => decide (-0x8000000000000000 ≤ v ∧ v < 0x8000000000000000)

def padLeft (fill : Char) (width : Nat) (s : List Char) : List Char :=
  List.replicate (width - s.length) fill ++ s

def padRight (fill : Char) (width : Nat) (s : List Char) : List Char :=
  s ++ List.replicate (width - s.length) fill

def decimal (n : Nat) : List Char := Nat.toDigits 10 n

def decimalInt (v : Int) : List Char :=
  if v < 0 then '-' :: decimal v.natAbs else decimal v.natAbs

def address (n : Nat) : List Char := padLeft '0' 3 (decimal n)

def bits (b : UInt8) : List Char := padLeft '0' 8 (Nat.toDigits 2 b.toNat)

def hex (b : UInt8) : List Char := padLeft '0' 2 ((Nat.toDigits 16 b.toNat).map Char.toUpper)

end Ls8.Text
