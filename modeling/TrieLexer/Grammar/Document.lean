import TrieLexer.Grammar.FlagText
import TrieLexer.Grammar.Validation
import TrieLexer.Json.Decoding

/-!
# Grammars out of documents

A grammar is written as a JSON object with a field for each of its parts; what is left out takes
its default. A definition is written as a string or as an object, and a list of literals of one
literal as a string. A definition is taken in as a whole before it is looked at, so whatever is
wrong with its shape, it is reported in the same words.

## Main definitions

* `Grammar.read` — the grammar of a document.
* `Grammar.ofText?` — the valid grammar of a text.
-/

namespace TrieLexer

open Json (Decoder Document Problem Entry Expected)

/-! ### Definitions -/

/-- The strings of a list of documents, if they are all strings. -/
def stringItems? : List Document → Option (List String)
  | [] => some []
  | .string (.ok s) :: ds => (s :: ·) <$> stringItems? ds
  | _ => none

/-- The literals that a well-formed document stands for. -/
def Matches.ofDocument? : Document → Option Matches
  | .string (.ok literal) => some (.one literal)
  | .array items _ => .many <$> stringItems? items
  | _ => none

/-- The values of a field among the entries of an object. -/
def fieldValues (name : String) (entries : List (Entry Document)) : List Document :=
  entries.filterMap fun entry =>
    match entry with
    | .field (.ok key) value => if key = name then some value else none
    | _ => none

/-- The definition that a well-formed document stands for. A field may not be given twice. -/
def Definition.ofDocument? : Document → Option Definition
  | .string (.ok literal) => some (.bare literal)
  | .object entries _ =>
    match fieldValues "type" entries, fieldValues "matches" entries with
    | [.string (.ok label)], [group] => .named label <$> Matches.ofDocument? group
    | _, _ => none
  | _ => none

/-- A value that takes in the whole document and then looks at its form. -/
def readForm {α : Type} (type : String) (form : Document → Option α) (levels : Nat) : Decoder α :=
  fun d => do
    Decoder.check (d.readFlaw levels)
    match form d with
    | some value => return value
    | none => throw (.mismatch (.noForm type))

/-- The definition of a document. -/
def Definition.read (levels : Nat) : Decoder Definition :=
  readForm "Definition" Definition.ofDocument? levels

/-- The definitions of a document. -/
def readDefinitions (levels : Nat) : Decoder (List Definition) :=
  Decoder.nested levels Decoder.listAtLimit fun inside => Decoder.list (Definition.read inside)

/-! ### Classes, labels and policies -/

/-- The flags of a document. -/
def CharFlags.read : Decoder CharFlags
  | .string value => do
    match CharFlags.ofText? (← Decoder.accept value) with
    | .ok flags => return flags
    | .error problem => throw (.mismatch (.flags problem))
  | d => Decoder.mismatch .flags d

/-- The fields of a class. -/
def CharClass.fields : List (Json.Decoder.Field CharClass) :=
  [⟨"flags", fun k d => return { k with flags := ← CharFlags.read d }⟩,
    ⟨"extra", fun k d => return { k with extra := ← Decoder.text d }⟩]

/-- The class of a document. -/
def CharClass.read (levels : Nat) : Decoder CharClass :=
  Decoder.nested levels (Decoder.recordAtLimit "CharClass") fun _ =>
    Decoder.record "CharClass" 0 CharClass.fields {}

/-- The fields of labels. -/
def Labels.fields : List (Json.Decoder.Field Labels) :=
  [⟨"keyword", fun l d => return { l with keyword := ← Decoder.text d }⟩,
    ⟨"punctuation", fun l d => return { l with punctuation := ← Decoder.text d }⟩,
    ⟨"delimiter", fun l d => return { l with delimiter := ← Decoder.text d }⟩,
    ⟨"identifier", fun l d => return { l with identifier := ← Decoder.text d }⟩,
    ⟨"number", fun l d => return { l with number := ← Decoder.text d }⟩,
    ⟨"float", fun l d => return { l with float := ← Decoder.optional Decoder.text d }⟩,
    ⟨"unknown", fun l d => return { l with unknown := ← Decoder.text d }⟩,
    ⟨"halted_prefix", fun l d => return { l with haltedMark := ← Decoder.text d }⟩]

/-- The labels of a document. -/
def Labels.read (levels : Nat) : Decoder Labels :=
  Decoder.nested levels (Decoder.recordAtLimit "Labels") fun _ =>
    Decoder.record "Labels" 0 Labels.fields {}

/-- The name of a policy in writing. -/
def ConflictPolicy.name : ConflictPolicy → String
  | lastWins => "last_wins"
  | reject => "reject"

/-- All policies. -/
def ConflictPolicy.all : List ConflictPolicy := [lastWins, reject]

/-- The policy of a name. -/
def ConflictPolicy.ofName (name : String) : Except Problem ConflictPolicy :=
  match all.find? (·.name == name) with
  | some policy => .ok policy
  | none => .error (.mismatch (.unknownVariant name (all.map ConflictPolicy.name)))

/-- Nothing but `null`. -/
def readUnit : Decoder Unit
  | .null => .ok ()
  | d => Decoder.mismatch .unit d

/-- A policy written as an object whose only field is named after it and holds `null`. -/
def ConflictPolicy.readObject (stop : Option Json.Flaw) :
    List (Entry Document) → Except Problem ConflictPolicy
  | [] => Decoder.refuse (stop.getD .malformed)
  | .broken reading _ :: _ => Decoder.refuse reading
  | .field key value :: rest => do
    let policy ← ConflictPolicy.ofName (← Decoder.accept key)
    readUnit value
    if !rest.isEmpty then Decoder.refuse .malformed
    Decoder.check stop
    return policy

/-- The policy of a document. Nothing but a string or an object is looked into. -/
def ConflictPolicy.read (levels : Nat) : Decoder ConflictPolicy
  | .string value => do ConflictPolicy.ofName (← Decoder.accept value)
  | .object entries stop =>
    match levels with
    | 0 => Decoder.refuse .malformed
    | _ + 1 => ConflictPolicy.readObject stop entries
  | .brokenString reading _ => Decoder.refuse reading
  | .missing flaw => Decoder.refuse flaw
  | _ => Decoder.refuse .malformed

/-! ### Matchers and grammars -/

/-- A matcher so far. -/
structure PartialMatcher where
  kind : Option String := none
  startsWith : Option String := none
  endsWith : Option String := none
  haltsWith : Option String := none
  escapesWith : Option String := none
  subGrammar : Option Grammar := none

/-- The fields of a matcher, with the reader of its interior grammar. -/
def PartialMatcher.fields (interior : Decoder Grammar) : List (Json.Decoder.Field PartialMatcher) :=
  [⟨"type", fun m d => return { m with kind := some (← Decoder.text d) }⟩,
    ⟨"starts_with", fun m d => return { m with startsWith := some (← Decoder.text d) }⟩,
    ⟨"ends_with", fun m d => return { m with endsWith := ← Decoder.optional Decoder.text d }⟩,
    ⟨"halts_with", fun m d => return { m with haltsWith := ← Decoder.optional Decoder.text d }⟩,
    ⟨"escapes_with", fun m d =>
      return { m with escapesWith := ← Decoder.optional Decoder.text d }⟩,
    ⟨"sub_grammar", fun m d => return { m with subGrammar := ← Decoder.optional interior d }⟩]

/-- The matcher, if its required fields are there. -/
def PartialMatcher.complete (m : PartialMatcher) : Except Problem (GreedyMatcher Grammar) := do
  let kind ← Decoder.required "type" m.kind
  let startsWith ← Decoder.required "starts_with" m.startsWith
  return { m with kind, startsWith }

/-- The fields of a grammar, with the reader of its greedy matchers. `levels` are left inside. -/
def Grammar.fields (levels : Nat) (matchers : Decoder (List (GreedyMatcher Grammar))) :
    List (Json.Decoder.Field Grammar) :=
  [⟨"keywords", fun g d => return { g with keywords := ← readDefinitions levels d }⟩,
    ⟨"punctuation", fun g d => return { g with punctuation := ← readDefinitions levels d }⟩,
    ⟨"delimiters", fun g d => return { g with delimiters := ← readDefinitions levels d }⟩,
    ⟨"greedy_matchers", fun g d => return { g with greedyMatchers := ← matchers d }⟩,
    ⟨"floats_have_leading_number", fun g d =>
      return { g with floatsHaveLeadingNumber := ← Decoder.truth d }⟩,
    ⟨"identifier_start", fun g d =>
      return { g with identifierStart := ← CharClass.read levels d }⟩,
    ⟨"identifier_continue", fun g d =>
      return { g with identifierContinue := ← CharClass.read levels d }⟩,
    ⟨"labels", fun g d => return { g with labels := ← Labels.read levels d }⟩,
    ⟨"include_unnamed_delimiters", fun g d =>
      return { g with includeUnnamedDelimiters := ← Decoder.truth d }⟩,
    ⟨"conflicts", fun g d => return { g with conflicts := ← ConflictPolicy.read levels d }⟩]

mutual

/-- The grammar of a document, with so many levels of nesting left. -/
def Grammar.read : Nat → Decoder Grammar
  | 0 => Decoder.recordAtLimit "GrammarConfig"
  | levels + 1 =>
    Decoder.record "GrammarConfig" 0 (Grammar.fields levels (readMatchers levels)) {}

/-- The greedy matchers of a document. -/
def readMatchers : Nat → Decoder (List (GreedyMatcher Grammar))
  | 0 => Decoder.listAtLimit
  | levels + 1 => Decoder.list (readMatcher levels)

/-- The greedy matcher of a document. -/
def readMatcher : Nat → Decoder (GreedyMatcher Grammar)
  | 0 => Decoder.recordAtLimit "GreedyMatcher"
  | levels + 1 => fun d => do
    let m ← Decoder.record "GreedyMatcher" 2 (PartialMatcher.fields (Grammar.read levels)) {} d
    m.complete

end

/-- The grammar of a text. -/
def Grammar.parse? (source : String) : Except GrammarError Grammar :=
  (Decoder.decode (Grammar.read Decoder.maxLevels) source).mapError .document

/-- The grammar of a text, which has to be valid. -/
def Grammar.ofText? (source : String) : Except GrammarError Grammar := do
  let grammar ← Grammar.parse? source
  grammar.validate
  return grammar

end TrieLexer
