import Ls8.Json

/-! Taking values of known kinds out of JSON. A record is written as an object, which may have
further fields. Where that is allowed, it may also be an array of exactly its fields in order. -/
namespace Ls8.Json

def int? : Json → Option Int
  | .scalar (.int n) => some n
  | _ => none

def bool? : Json → Option Bool
  | .scalar (.bool b) => some b
  | _ => none

def text? : Json → Option (List Char)
  | .scalar (.string t) => t
  | _ => none

def items? : Json → Option (List Json)
  | .array vs => some vs
  | _ => none

def isNull : Json → Bool
  | .scalar .null => true
  | _ => false

def below? (bound : Nat) (v : Json) : Option Nat :=
  v.int?.bind fun n => if 0 ≤ n ∧ n < bound then some n.toNat else none

def byte? (v : Json) : Option UInt8 := (v.below? 256).map Nat.toUInt8

/-- The value of a field that may be missing and must not stand twice. -/
def field? (fields : List (Text × Json)) (name : List Char) : Option (Option Json) :=
  match fields.filter (·.1 == some name) with
  | [] => some none
  | [(_, v)] => some (some v)
  | _ => none

/-- The fields of an object, in the order of the names. A name that spells no text is refused. -/
def named? (names : List (List Char)) : Json → Option (List (Option Json))
  | .object fields =>
    if fields.all (·.1.isSome) then names.mapM (field? fields) else none
  | _ => none

/-- The fields of a record that may be an object or an array. -/
def members? (names : List (List Char)) : Json → Option (List (Option Json))
  | .array vs => if vs.length = names.length then some (vs.map some) else none
  | v => v.named? names

def namedRecord? (names : List (List Char)) (v : Json) : Option (List Json) :=
  (v.named? names).bind (·.mapM id)

def record? (names : List (List Char)) (v : Json) : Option (List Json) :=
  (v.members? names).bind (·.mapM id)

/-- The name of a case and what comes with it: a bare name, or an object with one field. -/
def case? : Json → Option (List Char × Option Json)
  | .scalar (.string t) => t.map fun name => (name, none)
  | .object [(t, v)] => t.map fun name => (name, some v)
  | _ => none

def bareCase? (v : Json) : Option (List Char) :=
  match v.case? with
  | some (name, none) => some name
  | some (name, some v) => if v.isNull then some name else none
  | none => none

end Ls8.Json
