import Ls8.Json
import Ls8.Text.Numeral

/-! Writing JSON. A layout says what stands between the tokens; the compact layout has nothing
there, the indented one a line for every member. -/
namespace Ls8.Json

structure Layout where
  /-- What follows an opening bracket or a comma, and precedes a closing bracket, by depth. -/
  gap : Nat → List Char
  /-- What follows the colon of a field. -/
  space : List Char

def Layout.compact : Layout := ⟨fun _ => [], []⟩

def Layout.indented : Layout := ⟨fun depth => '\n' :: List.replicate (2 * depth) ' ', [' ']⟩

def codeEscape (n : Nat) : List Char :=
  '\\' :: 'u' :: Text.padLeft '0' 4 (Nat.toDigits 16 n)

/-- Quotes, backslashes and control characters are escaped; all else stands for itself. -/
def writeChar (c : Char) : List Char :=
  match c with
  | '"' => ['\\', '"']
  | '\\' => ['\\', '\\']
  | '\x08' => ['\\', 'b']
  | '\x0c' => ['\\', 'f']
  | '\n' => ['\\', 'n']
  | '\r' => ['\\', 'r']
  | '\t' => ['\\', 't']
  | _ => if c.toNat < 0x20 then codeEscape c.toNat else [c]

def writeText : Text → List Char
  | some s => '"' :: s.flatMap writeChar ++ ['"']
  | none => '"' :: codeEscape 0xD800 ++ ['"']

def Scalar.write : Scalar → List Char
  | null => "null".toList
  | bool true => "true".toList
  | bool false => "false".toList
  | int n => Text.decimalInt n
  | real literal => literal
  | string t => writeText t

mutual

def write (l : Layout) (depth : Nat) : Json → List Char
  | .scalar s => s.write
  | .array [] => ['[', ']']
  | .array (v :: vs) =>
    '[' :: l.gap (depth + 1) ++ write l (depth + 1) v ++ writeItems l (depth + 1) vs ++
      l.gap depth ++ [']']
  | .object [] => ['{', '}']
  | .object ((k, v) :: fs) =>
    '{' :: l.gap (depth + 1) ++ writeText k ++ ':' :: l.space ++ write l (depth + 1) v ++
      writeFields l (depth + 1) fs ++ l.gap depth ++ ['}']

def writeItems (l : Layout) (depth : Nat) : List Json → List Char
  | [] => []
  | v :: vs => ',' :: l.gap depth ++ write l depth v ++ writeItems l depth vs

def writeFields (l : Layout) (depth : Nat) : List (Text × Json) → List Char
  | [] => []
  | (k, v) :: fs =>
    ',' :: l.gap depth ++ writeText k ++ ':' :: l.space ++ write l depth v ++
      writeFields l depth fs

end

def compact (v : Json) : List Char := write .compact 0 v

def indented (v : Json) : List Char := write .indented 0 v

end Ls8.Json
