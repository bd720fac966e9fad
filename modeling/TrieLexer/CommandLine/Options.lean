import TrieLexer.Grammar.Preset

/-!
# Options

The commands that read a file take its path, and flags before or after it. Of several flags of one
kind the last one counts.

## Main definitions

* `Options` — the choices of a command line.
* `OptionError` — why arguments are refused.
* `Options.parse` — the choices that arguments make.
-/

namespace TrieLexer

/-- Where a grammar comes from. -/
inductive GrammarSource where
  | preset (p : Preset)
  /-- A document in the file of this path. -/
  | file (path : String)
deriving DecidableEq, Repr

/-- The choices of a command line. -/
structure Options where
  path : String
  grammar : GrammarSource := .preset .common
  /-- Read the file in pieces of so many bytes. -/
  chunk : Option Nat := none
  /-- Write one JSON object for each token. -/
  json : Bool := false
deriving DecidableEq, Repr

/-- Why arguments are refused. -/
inductive OptionError where
  | missingPath
  | unknownPreset (name : String)
  | badChunk (value : String)
  | unknownFlag (flag : String)
  | extraArgument (argument : String)
deriving DecidableEq, Repr

/-- The reason in words. -/
def OptionError.message : OptionError → String
  | missingPath => "missing file path"
  | unknownPreset name =>
    "unknown preset '" ++ name ++ "' (run `trellis presets` to list them)"
  | badChunk value => "--chunk expects a positive byte count, got '" ++ value ++ "'"
  | unknownFlag flag => "unknown option '" ++ flag ++ "'"
  | extraArgument argument => "unexpected argument '" ++ argument ++ "'"

/-- One argument, by its form. -/
inductive Argument where
  | preset (name : String)
  | grammar (path : String)
  | chunk (value : String)
  | json
  | unknownFlag (flag : String)
  | input (path : String)
deriving DecidableEq, Repr

namespace Argument

/-- What follows a lead at the front of a text. -/
def after? (lead text : String) : Option String :=
  (lead.toList.isPrefixOf? text.toList).map String.ofList

/-- The form of an argument. -/
def ofText (text : String) : Argument :=
  match after? "--preset=" text with
  | some name => preset name
  | none =>
    match after? "--grammar=" text with
    | some path => grammar path
    | none =>
      match after? "--chunk=" text with
      | some value => chunk value
      | none =>
        if text = "--json" then json
        else if text.toList.head? = some '-' then unknownFlag text
        else input text

end Argument

/-- The decimal number below `2 ^ 64` that a text is, with an optional plus sign. -/
def parseCount? (text : String) : Option Nat :=
  let digits := match text.toList with
    | '+' :: r => r
    | cs => cs
  if digits.isEmpty || !digits.all Char.isDigit then none
  else
    let n := digits.foldl (fun n c => 10 * n + (c.toNat - '0'.toNat)) 0
    if n < UInt64.size then some n else none

namespace Options

/-- The choices so far; the path may still be missing. -/
structure Pending where
  path : Option String := none
  grammar : GrammarSource := .preset .common
  chunk : Option Nat := none
  json : Bool := false
deriving DecidableEq, Repr

/-- Takes in one argument. -/
def Pending.add (p : Pending) : Argument → Except OptionError Pending
  | .preset name =>
    match Preset.ofName? name with
    | some preset => .ok { p with grammar := .preset preset }
    | none => .error (.unknownPreset name)
  | .grammar path => .ok { p with grammar := .file path }
  | .chunk value =>
    match parseCount? value with
    | some (n + 1) => .ok { p with chunk := some (n + 1) }
    | _ => .error (.badChunk value)
  | .json => .ok { p with json := true }
  | .unknownFlag flag => .error (.unknownFlag flag)
  | .input path =>
    match p.path with
    | none => .ok { p with path := some path }
    | some _ => .error (.extraArgument path)

/-- The choices, if the path is there. -/
def Pending.complete (p : Pending) : Except OptionError Options :=
  match p.path with
  | some path => .ok { p with path }
  | none => .error .missingPath

/-- The choices that arguments make. -/
def parse (arguments : List String) : Except OptionError Options := do
  let pending ← arguments.foldlM (fun p text => p.add (Argument.ofText text)) ({} : Pending)
  pending.complete

end Options

end TrieLexer
