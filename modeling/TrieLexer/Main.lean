import TrieLexer.CommandLine.Run

/-!
# The program

Reads the files that the command line names, carries it out, and writes what it gives.
-/

namespace TrieLexer

/-- The number of a system error, which may come with its sign changed. -/
def systemErrorNumber (code : UInt32) : Nat := min code.toNat (UInt32.size - code.toNat)

/-- Why a file cannot be read, by the error that reading it gave. -/
def FileError.ofSystem : IO.Error → FileError
  | .noFileOrDirectory .. => .notFound
  | .permissionDenied .. => .permissionDenied
  | e@(.inappropriateType _ code _) =>
    match systemErrorNumber code with
    | 20 => .notDirectory
    | 21 => .isDirectory
    | _ => .other (toString e)
  | e@(.invalidArgument _ code _) =>
    if systemErrorNumber code = 36 then .nameTooLong else .other (toString e)
  | e => .other (toString e)

/-- The contents of a file, or why it cannot be read. -/
def loadFile (path : String) : IO (Except FileError (List UInt8)) := do
  try
    let bytes ← IO.FS.readBinFile path
    return .ok bytes.toList
  catch e => return .error (.ofSystem e)

end TrieLexer

open TrieLexer in
/-- The command line program. -/
def main (arguments : List String) : IO UInt32 := do
  let mut contents : List (String × Except FileError (List UInt8)) := []
  for path in CommandLine.filesNeeded arguments do
    contents := (path, ← loadFile path) :: contents
  let files : FileSystem := fun path => (contents.lookup path).getD (.error .notFound)
  let outcome := CommandLine.run files arguments
  IO.print outcome.out
  IO.eprint outcome.err
  return UInt32.ofNat outcome.code
