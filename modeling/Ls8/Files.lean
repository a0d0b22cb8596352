import Ls8.Text.Numeral
import Ls8.Text.Pieces

/-! A directory of files, with the paths that lead through it. It stands for the working
directory of the command line; outside of it there is nothing but directories. -/
namespace Ls8

inductive FileError where
  | notFound
  | notDirectory
  | isDirectory
  | nameTooLong
  | badName
  | notText
  | other (report : List Char)
  deriving DecidableEq

/-- The wording of the operating system, with its number for the error. -/
def FileError.message : FileError → List Char
  | notFound => "No such file or directory (os error 2)".toList
  | notDirectory => "Not a directory (os error 20)".toList
  | isDirectory => "Is a directory (os error 21)".toList
  | nameTooLong => "File name too long (os error 36)".toList
  | badName => "file name contained an unexpected NUL byte".toList
  | notText => "stream did not contain valid UTF-8".toList
  | other report => report

inductive Node where
  | file (bytes : List UInt8)
  | directory
  deriving DecidableEq

/-- Each file and directory under the names that lead to it, outermost name first. -/
structure Files where
  nodes : List (List (List Char) × Node)
  deriving DecidableEq

namespace Files

def empty : Files := ⟨[]⟩

/-- A place in the tree: a list of names, innermost first, or somewhere above all of it. -/
inductive Place where
  | inside (names : List (List Char))
  | outside

def node? (d : Files) : Place → Option Node
  | .inside [] | .outside => some .directory
  | .inside names => d.nodes.lookup names.reverse

def child? (d : Files) (here : Place) (name : List Char) :
    Except FileError (Place × Option Node) :=
  if 255 < (String.ofList name).utf8ByteSize then .error .nameTooLong
  else match here with
    | .outside => .ok (.outside, none)
    | .inside names => .ok (.inside (name :: names), d.node? (.inside (name :: names)))

def isDots (name : List Char) : Bool := name == ['.'] || name == ['.', '.']

def enter (d : Files) (here : Place) (name : List Char) : Except FileError Place :=
  if name == ['.'] then .ok here
  else if name == ['.', '.'] then
    match here with
    | .inside (_ :: names) => .ok (.inside names)
    | _ => .ok .outside
  else do
    match ← d.child? here name with
    | (there, some .directory) => .ok there
    | (_, some (.file _)) => .error .notDirectory
    | (_, none) => .error .notFound

/-- A path in its parts. One that ends in a slash can only mean a directory. -/
structure Path where
  start : Place
  names : List (List Char)
  slash : Bool

def Path.parse (s : List Char) : Except FileError Path :=
  if s.isEmpty then .error .notFound
  else if s.contains '\x00' then .error .badName
  else if 4096 ≤ (String.ofList s).utf8ByteSize then .error .nameTooLong
  else .ok {
    start := if s.head? == some '/' then .outside else .inside []
    names := (Text.pieces (· == '/') s).filter fun name => !name.isEmpty
    slash := s.getLast? == some '/' }

def parent (d : Files) (p : Path) : Except FileError (Place × List Char) := do
  let here ← p.names.dropLast.foldlM d.enter p.start
  let name := p.names.getLastD ['.']
  if isDots name then
    let _ ← d.enter here name
    .error .isDirectory
  else .ok (here, name)

def read (d : Files) (path : List Char) : Except FileError (List UInt8) := do
  let p ← Path.parse path
  let (here, name) ← d.parent p
  match ← d.child? here name with
  | (_, some (.file bytes)) => if p.slash then .error .notDirectory else .ok bytes
  | (_, some .directory) => .error .isDirectory
  | (_, none) => .error .notFound

def write (d : Files) (path : List Char) (bytes : List UInt8) : Except FileError Files := do
  let p ← Path.parse path
  let (here, name) ← d.parent p
  if p.slash then .error .isDirectory
  else match ← d.child? here name with
    | (_, some .directory) => .error .isDirectory
    | (.outside, _) => .error .notFound
    | (.inside names, _) =>
      let there := names.reverse
      .ok ⟨(there, .file bytes) :: d.nodes.filter fun n => n.1 != there⟩

def add (d : Files) (names : List (List Char)) (n : Node) : Files :=
  let above := (List.range names.length).map names.take
  let missing := above.filter fun a => !a.isEmpty && (d.nodes.lookup a).isNone
  ⟨(names, n) :: missing.map (fun a => (a, .directory)) ++ d.nodes⟩

def text? (bytes : List UInt8) : Option (List Char) :=
  (String.fromUTF8? bytes.toByteArray).map String.toList

def bytesOf (s : List Char) : List UInt8 := s.flatMap String.utf8EncodeChar

theorem text?_bytesOf (s : List Char) : text? (bytesOf s) = some s := by
  have whole : (bytesOf s).toByteArray = (String.ofList s).toByteArray := rfl
  have read : String.fromUTF8? (bytesOf s).toByteArray = some (String.ofList s) := by
    rw [whole, String.fromUTF8?, dif_pos (String.ofList s).isValidUTF8]
    rfl
  rw [text?, read]
  exact congrArg some String.toList_ofList

end Files
end Ls8
