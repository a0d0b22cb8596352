import Ls8.Json.Lexer

/-! From tokens to a JSON value, with a stack of the arrays and objects that are open. Depth is
not limited. -/
namespace Ls8.Json

/-- An open array, or an open object that waits for the value of a name. Last comes first. -/
inductive Frame where
  | items (done : List Json)
  | fields (done : List (Text × Json)) (name : Text)

inductive Expect where
  | value
  /-- The first value of an array, or its end. -/
  | item
  /-- A name; with no field before it, also the end of the object. -/
  | name (done : List (Text × Json))
  | colon (done : List (Text × Json)) (name : Text)
  /-- A value has just been read in full. -/
  | after (v : Json)

def begin (stack : List Frame) : Token → Option (Expect × List Frame)
  | .scalar s => some (.after (.scalar s), stack)
  | .openArray => some (.item, .items [] :: stack)
  | .openObject => some (.name [], stack)
  | _ => none

def accept : Expect × List Frame → Token → Option (Expect × List Frame)
  | (.value, stack), t => begin stack t
  | (.item, .items [] :: stack), .closeArray => some (.after (.array []), stack)
  | (.item, stack), t => begin stack t
  | (.name done, stack), .scalar (.string k) => some (.colon done k, stack)
  | (.name [], stack), .closeObject => some (.after (.object []), stack)
  | (.colon done k, stack), .colon => some (.value, .fields done k :: stack)
  | (.after v, .items done :: stack), .comma => some (.value, .items (v :: done) :: stack)
  | (.after v, .items done :: stack), .closeArray =>
    some (.after (.array (v :: done).reverse), stack)
  | (.after v, .fields done k :: stack), .comma => some (.name ((k, v) :: done), stack)
  | (.after v, .fields done k :: stack), .closeObject =>
    some (.after (.object ((k, v) :: done).reverse), stack)
  | _, _ => none

def ofTokens? (ts : List Token) : Option Json :=
  match ts.foldlM accept (.value, []) with
  | some (.after v, []) => some v
  | _ => none

def read? (s : List Char) : Option Json := (tokens? s).bind ofTokens?

end Ls8.Json
