/-! JSON values and the tokens they are written with. -/
namespace Ls8

/-- What a string literal spells. A literal can escape one half of a surrogate pair; such a
literal is well formed and spells no text. -/
abbrev Json.Text : Type := Option (List Char)

inductive Json.Scalar where
  | null
  | bool (b : Bool)
  | int (n : Int)
  /-- A number with a fraction or an exponent, or minus zero, as it was written. -/
  | real (literal : List Char)
  | string (t : Json.Text)
  deriving DecidableEq

inductive Json where
  | scalar (s : Json.Scalar)
  | array (items : List Json)
  | object (fields : List (Json.Text × Json))

namespace Json

def null : Json := .scalar .null

def bool (b : Bool) : Json := .scalar (.bool b)

def int (n : Int) : Json := .scalar (.int n)

def nat (n : Nat) : Json := int n

def text (s : List Char) : Json := .scalar (.string (some s))

def record (fields : List (List Char × Json)) : Json :=
  .object (fields.map fun (name, v) => (some name, v))

inductive Token where
  | openArray | closeArray | openObject | closeObject | comma | colon
  | scalar (s : Scalar)
  deriving DecidableEq

end Json
end Ls8
