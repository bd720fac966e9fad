import TrieLexer.Automaton.Assembly
import TrieLexer.CommandLine.FileSystem
import TrieLexer.CommandLine.Options
import TrieLexer.CommandLine.Place
import TrieLexer.Grammar.Document
import TrieLexer.Stream.TokenReader
import TrieLexer.Token.Document
import TrieLexer.Token.Listing

/-!
# Commands

A command line is carried out as a function of its arguments and of the files that it names: it
gives an exit status and the texts for the two output streams.

## Main definitions

* `Outcome` — what a command does.
* `CommandLine.run` — carries out a command line.
* `CommandLine.filesNeeded` — the files that a command line reads.
-/

namespace TrieLexer

/-- What a command does: its exit status and its output. -/
structure Outcome where
  code : Nat := 0
  out : String := ""
  err : String := ""
deriving DecidableEq, Repr

namespace CommandLine

/-- Lines of text, each with its end. -/
def unlines (lines : List String) : String := String.join (lines.map (· ++ "\n"))

/-- A command that ends with a complaint. -/
def fail (message : String) : Outcome := { code := 1, err := unlines [message] }

/-- A command that cannot go on and breaks off, which its exit status tells. Of the complaint only
the reason is given here, without the place in the program. -/
def breakOff (message : String) : Outcome := { code := 101, err := unlines [message] }

/-- What is said of a file that holds no text. -/
def invalidTextMessage (path : String) : String :=
  "'" ++ path ++ "' contains invalid UTF-8 data"

/-- The text of a file, or what is said where there is none. -/
def readText (files : FileSystem) (path : String) : Except String String := do
  let bytes ← (files path).mapError (FileError.message path)
  match Text.decodeAll? bytes with
  | some text => return text
  | none => throw (invalidTextMessage path)

/-- The chosen automaton, or what is said where there is none. -/
def loadAutomaton (files : FileSystem) (source : GrammarSource) : Except String Automaton := do
  let refuse (name : String) (e : GrammarError) : String :=
    "invalid grammar '" ++ name ++ "': " ++ e.message
  let (name, grammar) ← match source with
    | .preset p => pure (p.name, p.grammar)
    | .file path => do
      let text ← readText files path
      let grammar ← (Grammar.ofText? text).mapError (refuse path)
      pure (path, grammar)
  grammar.compile.result.mapError (refuse name)

/-- What is said where a buffer would be too large. -/
def overflowMessage : String := "capacity overflow"

/-! ### The command `lex` -/

/-- A token as a line of the listing. -/
def tokenLine (json : Bool) (t : Token) : String :=
  if json then t.toJson.render else "  " ++ t.row 28

/-- How a listing ends when the stream breaks off. -/
def endedBy (path : String) (e : ReadError) : Outcome :=
  match e with
  | .invalidText .. => fail (invalidTextMessage path)
  | .truncatedText => fail (invalidTextMessage path)
  | .failed _ => fail (FileError.message path (.other e.message))
  | .fault _ => breakOff e.message

/-- The listing of a file that is read in pieces. The tokens before an error are listed. -/
def lexPieces (a : Automaton) (options : Options) (bytes : List UInt8) (chunk : Nat) : Outcome :=
  match TokenReader.capacityOf (some chunk) with
  | none => breakOff overflowMessage
  | some capacity =>
    let (items, _) := (TokenReader.start a (Delivery.outcomes capacity [] bytes)).items
    let listing := unlines <| items.filterMap fun item =>
      match item with
      | .ok t => some (tokenLine options.json t)
      | .error _ => none
    let errors := items.filterMap fun item =>
      match item with
      | .ok _ => none
      | .error e => some e
    match errors with
    | [] => { out := listing }
    | e :: _ => { endedBy options.path e with out := listing }

/-- The listing of a whole text. -/
def lexWhole (a : Automaton) (options : Options) (text : String) : Outcome :=
  match a.tokenize text with
  | .error f => breakOff (ReadError.fault f).message
  | .ok tokens =>
    let header := "Tokens for '" ++ options.path ++ "' (" ++ toString tokens.length ++ " tokens):"
    let lines := tokens.map (tokenLine options.json)
    { out := unlines (if options.json then lines else header :: lines) }

/-- Lists the tokens of a file. -/
def lex (files : FileSystem) (options : Options) : Outcome :=
  match loadAutomaton files options.grammar with
  | .error message => fail message
  | .ok a =>
    match options.chunk with
    | some chunk =>
      match files options.path with
      | .error e => fail (e.message options.path)
      | .ok bytes => lexPieces a options bytes chunk
    | none =>
      match readText files options.path with
      | .error message => fail message
      | .ok text => lexWhole a options text

/-! ### The command `check` -/

/-- The type of a halted token without the mark of unterminated runs. -/
def haltedKind (mark : String) (t : Token) : String :=
  String.ofList (t.kind.toList.drop mark.toList.length)

/-- The line that reports a halted token. -/
def haltedLine (path text mark : String) (t : Token) : String :=
  let place := (placeAt? text t.position).getD default
  path ++ ":" ++ toString place.line ++ ":" ++ toString place.column ++ ": unterminated " ++
    haltedKind mark t

/-- The report on the tokens of a text. -/
def report (path text mark : String) (tokens : List Token) : Outcome :=
  match tokens.filter (·.isHalted mark) with
  | [] => { out := unlines [path ++ ": ok"] }
  | halted =>
    { code := 1
      err := unlines <| halted.map (haltedLine path text mark) ++
        ["", toString halted.length ++ " unterminated run(s) in '" ++ path ++ "'"] }

/-- Reports the unterminated runs of a file. -/
def check (files : FileSystem) (options : Options) : Outcome :=
  match loadAutomaton files options.grammar with
  | .error message => fail message
  | .ok a =>
    match readText files options.path with
    | .error message => fail message
    | .ok text =>
      match a.tokenize text with
      | .error f => breakOff (ReadError.fault f).message
      | .ok tokens => report options.path text a.haltedMark tokens

/-! ### The other commands -/

/-- The list of presets. -/
def presetLines : List String :=
  "Built-in grammars:" ::
    Preset.all.map fun p => "  " ++ Text.alignLeft 10 p.name ++ " " ++ p.description

/-- How the program is used. -/
def usageLines : List String :=
  ["Trellis tokenizer",
    "",
    "Usage: trellis <command> [options]",
    "",
    "Commands:",
    "  lex <file>        Tokenize a file and print the tokens",
    "  check <file>      Report unterminated strings and comments (exit 1 if any)",
    "  presets           List built-in grammars",
    "  help              Show this help message",
    "  version           Show version information",
    "",
    "Options:",
    "  --preset=<name>         Built-in grammar (default: common)",
    "  --grammar=<file.json>   Grammar from a JSON document",
    "  --chunk=<bytes>         Stream the file in reads of this size (lex only)",
    "  --json                  One JSON object per token (lex only)",
    "",
    "Logging:",
    "  RUST_LOG=trellis_lexer_core=trace    Enable tracing output",
    "  TRELLIS_LOG_TREE=1                   Render spans as a tree",
    "",
    "Examples:",
    "  trellis lex query.sql --preset=sql",
    "  trellis lex data.json --preset=json --json",
    "  trellis check main.js",
    "  trellis lex notes.txt --grammar=notes.grammar.json --chunk=4096"]

/-- The version of the program. -/
def versionLine : String := "Trellis 0.1.0"

/-- A command. -/
inductive Command where
  | lex
  | check
  | presets
  | help
  | version
  | unknown (name : String)
deriving DecidableEq, Repr

/-- The command of a name. -/
def Command.ofName (name : String) : Command :=
  match name with
  | "lex" => lex
  | "check" => check
  | "presets" => presets
  | "help" | "--help" | "-h" => help
  | "version" | "--version" | "-V" => version
  | name => unknown name

/-- A command that takes options. -/
def runWith (command : String) (arguments : List String) (act : Options → Outcome) : Outcome :=
  match Options.parse arguments with
  | .ok options => act options
  | .error e =>
    { code := 1
      err := unlines
        ["error: " ++ e.message,
          "Usage: trellis " ++ command ++
            " <file> [--preset=<name> | --grammar=<file.json>]"] }

/-- Carries out a command line. -/
def run (files : FileSystem) : List String → Outcome
  | [] => { out := unlines usageLines }
  | name :: arguments =>
    match Command.ofName name with
    | .lex => runWith "lex" arguments (lex files)
    | .check => runWith "check" arguments (check files)
    | .presets => { out := unlines presetLines }
    | .help => { out := unlines usageLines }
    | .version => { out := unlines [versionLine] }
    | .unknown name =>
      { code := 1, out := unlines usageLines, err := unlines ["Unknown command: " ++ name, ""] }

/-- The files that a command line reads, in their order. -/
def filesNeeded : List String → List String
  | [] => []
  | name :: arguments =>
    match Command.ofName name, Options.parse arguments with
    | .lex, .ok options => paths options
    | .check, .ok options => paths options
    | _, _ => []
where
  /-- The grammar's file, if there is one, and the input. -/
  paths (options : Options) : List String :=
    match options.grammar with
    | .file path => [path, options.path]
    | .preset _ => [options.path]

end CommandLine

end TrieLexer
