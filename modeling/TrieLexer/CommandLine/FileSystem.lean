/-!
# Files by their paths

A command sees files as a function of their paths.

## Main definitions

* `FileError` — why a file cannot be read.
* `FileSystem` — the contents of files by their paths.
-/

namespace TrieLexer

/-- Why a file cannot be read. -/
inductive FileError where
  | notFound
  | permissionDenied
  /-- The path leads to a directory. -/
  | isDirectory
  /-- The path leads on from a file. -/
  | notDirectory
  | nameTooLong
  /-- Any other reason, in words. -/
  | other (reason : String)
deriving DecidableEq, Repr

/-- What is said of a file that cannot be read. -/
def FileError.message (path : String) : FileError → String
  | notFound => "cannot find file '" ++ path ++ "'"
  | permissionDenied => "permission denied reading '" ++ path ++ "'"
  | isDirectory => "error reading '" ++ path ++ "': Is a directory (os error 21)"
  | notDirectory => "error reading '" ++ path ++ "': Not a directory (os error 20)"
  | nameTooLong => "error reading '" ++ path ++ "': File name too long (os error 36)"
  | other reason => "error reading '" ++ path ++ "': " ++ reason

/-- The contents of files by their paths. -/
abbrev FileSystem := String → Except FileError (List UInt8)

end TrieLexer
