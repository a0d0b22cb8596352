import Ls8.CommandLine

/-! The program: arguments and one file in, text and perhaps one file out. -/
namespace Ls8.CommandLine

def reportOf : IO.Error → FileError
  | .noFileOrDirectory .. => .notFound
  | .inappropriateType _ 20 _ => .notDirectory
  | .inappropriateType _ 21 _ => .isDirectory
  | e => .other e.toString.toList

def readContent (path : List Char) : IO (Except FileError (List UInt8)) := do
  try
    return .ok (← IO.FS.readBinFile (String.ofList path)).toList
  catch e => return .error (reportOf e)

def writeContent (path content : List Char) : IO (Except FileError Unit) := do
  try
    IO.FS.writeBinFile (String.ofList path) (Files.bytesOf content).toByteArray
    return .ok ()
  catch e => return .error (reportOf e)

def Answer.carryOut (a : Answer) : IO UInt32 := do
  IO.print a.stdout
  IO.eprint a.before
  if let some (path, content) := a.dump then
    let written ← writeContent path content
    IO.eprint (String.ofList (dumpMessage a.verbosity path written))
  IO.eprint a.after
  return a.exit.code.toUInt32

def invoke (args : List String) : IO UInt32 := do
  match parse (args.map String.toList) with
  | .error stop => (stopAnswer stop).carryOut
  | .ok o =>
    match answer o (← readContent o.program) fun _ => some .absent with
    | some a => a.carryOut
    | none => return 0

end Ls8.CommandLine

def main (args : List String) : IO UInt32 := Ls8.CommandLine.invoke args
