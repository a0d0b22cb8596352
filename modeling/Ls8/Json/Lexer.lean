import Ls8.Json
import Ls8.Text.Numeral

/-! From the characters of a JSON text to its tokens, one character at a time. A run of letters,
digits, signs and points is one word, and a word is a literal or a number or an error. -/
namespace Ls8.Json

def isSpace (c : Char) : Bool := c == ' ' || c == '\n' || c == '\t' || c == '\r'

def isWordChar (c : Char) : Bool := c.isAlphanum || c == '+' || c == '-' || c == '.'

def isExponent : List Char → Bool
  | [] => true
  | e :: '+' :: s => (e == 'e' || e == 'E') && !s.isEmpty && s.all Char.isDigit
  | e :: '-' :: s => (e == 'e' || e == 'E') && !s.isEmpty && s.all Char.isDigit
  | e :: s => (e == 'e' || e == 'E') && !s.isEmpty && s.all Char.isDigit

def isTail : List Char → Bool
  | '.' :: s => !(s.takeWhile Char.isDigit).isEmpty && isExponent (s.dropWhile Char.isDigit)
  | s => isExponent s

/-- A number: no leading zeros, no plus in front, a digit on each side of a point. -/
def number? (word : List Char) : Option Scalar :=
  let negative := word.head? == some '-'
  let digits := if negative then word.tail else word
  let whole := digits.takeWhile Char.isDigit
  let tail := digits.dropWhile Char.isDigit
  if (whole.head? == some '0' && whole.length != 1) || !isTail tail then none
  else (Text.natural? 10 whole).map fun n =>
    if !tail.isEmpty || (negative && n == 0) then .real word
    else .int (if negative then -n else n)

def word? (word : List Char) : Option Scalar :=
  if word = "null".toList then some .null
  else if word = "true".toList then some (.bool true)
  else if word = "false".toList then some (.bool false)
  else number? word

inductive Part where
  | char (c : Char)
  | code (n : Nat)

/-- The text of a literal whose beginning has been spelled, last character first. Two escaped
halves of a surrogate pair make one character, and half a pair makes none. -/
def spell (done : List Char) : List Part → Text
  | [] => some done.reverse
  | .char c :: rest => spell (c :: done) rest
  | .code high :: .code low :: rest =>
    if 0xD800 ≤ high ∧ high < 0xDC00 ∧ 0xDC00 ≤ low ∧ low < 0xE000 then
      spell (Char.ofNat (0x10000 + (high - 0xD800) * 0x400 + (low - 0xDC00)) :: done) rest
    else if 0xD800 ≤ high ∧ high < 0xE000 then none
    else spell (Char.ofNat high :: done) (.code low :: rest)
  | .code n :: rest =>
    if 0xD800 ≤ n ∧ n < 0xE000 then none else spell (Char.ofNat n :: done) rest

/-- Where the lexer is. What has been collected stands in reverse order. -/
inductive Mode where
  | between
  | word (w : List Char)
  | string (parts : List Part)
  | escape (parts : List Part)
  | code (parts : List Part) (digits : List Char)

def start (c : Char) : Option (List Token × Mode) :=
  if isSpace c then some ([], .between)
  else if isWordChar c then some ([], .word [c])
  else match c with
    | '[' => some ([.openArray], .between)
    | ']' => some ([.closeArray], .between)
    | '{' => some ([.openObject], .between)
    | '}' => some ([.closeObject], .between)
    | ',' => some ([.comma], .between)
    | ':' => some ([.colon], .between)
    | '"' => some ([], .string [])
    | _ => none

def escaped? : Char → Option Char
  | '"' => some '"'
  | '\\' => some '\\'
  | '/' => some '/'
  | 'b' => some '\x08'
  | 'f' => some '\x0c'
  | 'n' => some '\n'
  | 'r' => some '\r'
  | 't' => some '\t'
  | _ => none

def advance (mode : Mode) (c : Char) : Option (List Token × Mode) :=
  match mode with
  | .between => start c
  | .word w =>
    if isWordChar c then some ([], .word (c :: w))
    else do
      let s ← word? w.reverse
      let (ts, next) ← start c
      return (.scalar s :: ts, next)
  | .string parts =>
    if c == '"' then some ([.scalar (.string (spell [] parts.reverse))], .between)
    else if c == '\\' then some ([], .escape parts)
    else if c.toNat < 0x20 then none
    else some ([], .string (.char c :: parts))
  | .escape parts =>
    if c == 'u' then some ([], .code parts [])
    else (escaped? c).map fun e => ([], .string (.char e :: parts))
  | .code parts digits =>
    if digits.length < 3 then some ([], .code parts (c :: digits))
    else (Text.natural? 16 (c :: digits).reverse).map fun n => ([], .string (.code n :: parts))

def feed (state : Mode × List Token) (c : Char) : Option (Mode × List Token) :=
  (advance state.1 c).map fun (ts, next) => (next, ts.reverse ++ state.2)

def tokens? (s : List Char) : Option (List Token) := do
  match ← s.foldlM feed (.between, []) with
  | (.between, done) => some done.reverse
  | (.word w, done) => (word? w.reverse).map fun last => (.scalar last :: done).reverse
  | _ => none

end Ls8.Json
