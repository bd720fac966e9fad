import TrieLexer.Grammar.Role
import TrieLexer.Json.Problem

/-!
# Errors of a grammar

Everything that can be wrong with a grammar shows before the first character is scanned.

## Main definitions

* `GrammarError` — the causes.
* `GrammarError.message` — the cause in words.
-/

namespace TrieLexer

/-- The kinds of literal that must not be empty. -/
inductive LiteralKind where
  | keyword
  | punctuation
  | delimiter
  | opener
deriving DecidableEq, Repr

/-- The kind in words. -/
def LiteralKind.description : LiteralKind → String
  | keyword => "keyword"
  | punctuation => "punctuation"
  | delimiter => "delimiter"
  | opener => "greedy matcher opener"

/-- Why a grammar is refused. -/
inductive GrammarError where
  /-- An empty literal would be the end of input. -/
  | emptyLiteral (kind : LiteralKind)
  /-- An escape of more than one character. -/
  | multiCharEscape (matcher escape : String)
  /-- A greedy matcher with an empty type. -/
  | emptyMatcherType (startsWith : String)
  /-- Two roles for one literal. An existing claim of no role is that of a longer literal. -/
  | conflict (literal : String) (existing : Option Role) (incoming : Role)
  /-- An error in the interior grammar of a matcher. -/
  | subGrammar (matcher : String) (source : GrammarError)
  /-- A document that is no grammar. -/
  | document (problem : Json.Problem)
deriving DecidableEq, Repr

namespace GrammarError

/-- What stands on a node already, in words. -/
def claimantText : Option Role → String
  | some role => role.description
  | none => "the prefix of a longer literal"

/-- The cause in words. -/
def message : GrammarError → String
  | emptyLiteral kind => "empty literal in " ++ kind.description ++ " definitions"
  | multiCharEscape matcher escape =>
    "greedy matcher `" ++ matcher ++ "` escapes with " ++ Text.quoted escape ++
      "; only single-character escapes are supported"
  | emptyMatcherType startsWith =>
    "greedy matcher opening with " ++ Text.quoted startsWith ++ " has an empty type"
  | conflict literal existing incoming =>
    "ambiguous grammar: " ++ Text.quoted literal ++ " is claimed by " ++ claimantText existing ++
      " and by " ++ incoming.description
  | subGrammar matcher source => "in sub-grammar of `" ++ matcher ++ "`: " ++ source.message
  | document problem => "invalid grammar document: " ++ problem.description

end GrammarError

/-- A remark on an ambiguous grammar that is accepted all the same. -/
inductive Warning where
  /-- A later role replaces an earlier one. -/
  | replaced (literal : String) (existing incoming : Role)
  /-- A number that begins with its decimal point hides an earlier definition. -/
  | leadingPoint (existing : Option Role)
deriving DecidableEq, Repr

end TrieLexer
