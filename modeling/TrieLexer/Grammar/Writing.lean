import TrieLexer.Grammar.Document
import TrieLexer.Json.Value

/-!
# Grammars into documents

The written form of a grammar names every part, also those that have their default. A greedy
matcher leaves out what it does not have; a missing label of numbers with a point is `null`.

## Main definitions

* `Grammar.toJson` — the document of a grammar, and likewise for its parts.
-/

namespace TrieLexer

open Json (Value)

/-- The document of a list of literals. -/
def Matches.toJson : Matches → Value
  | one literal => .string literal
  | many literals => .array (literals.map .string)

/-- The document of a definition. -/
def Definition.toJson : Definition → Value
  | bare literal => .string literal
  | named label group => .object [("type", .string label), ("matches", group.toJson)]

/-- The document of definitions. -/
def definitionsToJson (definitions : List Definition) : Value :=
  .array (definitions.map Definition.toJson)

/-- The document of a class. -/
def CharClass.toJson (k : CharClass) : Value :=
  .object [("flags", .string k.flags.text), ("extra", .string k.extra)]

/-- The document of labels. -/
def Labels.toJson (l : Labels) : Value :=
  .object
    [("keyword", .string l.keyword), ("punctuation", .string l.punctuation),
      ("delimiter", .string l.delimiter), ("identifier", .string l.identifier),
      ("number", .string l.number), ("float", (l.float.map Value.string).getD .null),
      ("unknown", .string l.unknown), ("halted_prefix", .string l.haltedMark)]

/-- A field for a value that is there. -/
def presentField (name : String) (value : Option Value) : List (String × Value) :=
  value.toList.map (name, ·)

mutual

/-- The document of a grammar. -/
def Grammar.toJson : Grammar → Value
  | ⟨lexicon, matchers⟩ =>
    .object
      [("keywords", definitionsToJson lexicon.keywords),
        ("punctuation", definitionsToJson lexicon.punctuation),
        ("delimiters", definitionsToJson lexicon.delimiters),
        ("greedy_matchers", .array (matchersToJson matchers)),
        ("floats_have_leading_number", .boolean lexicon.floatsHaveLeadingNumber),
        ("identifier_start", lexicon.identifierStart.toJson),
        ("identifier_continue", lexicon.identifierContinue.toJson),
        ("labels", lexicon.labels.toJson),
        ("include_unnamed_delimiters", .boolean lexicon.includeUnnamedDelimiters),
        ("conflicts", .string lexicon.conflicts.name)]

/-- The documents of greedy matchers. -/
def matchersToJson : List (GreedyMatcher Grammar) → List Value
  | [] => []
  | m :: ms => matcherToJson m :: matchersToJson ms

/-- The document of a greedy matcher. -/
def matcherToJson : GreedyMatcher Grammar → Value
  | ⟨kind, startsWith, endsWith, haltsWith, escapesWith, interior⟩ =>
    .object
      ([("type", .string kind), ("starts_with", .string startsWith)] ++
        presentField "ends_with" (endsWith.map .string) ++
        presentField "halts_with" (haltsWith.map .string) ++
        presentField "escapes_with" (escapesWith.map .string) ++
        presentField "sub_grammar" (interiorToJson interior))

/-- The document of an interior grammar. -/
def interiorToJson : Option Grammar → Option Value
  | none => none
  | some grammar => some grammar.toJson

end

end TrieLexer
