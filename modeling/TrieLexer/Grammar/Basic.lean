import TrieLexer.Grammar.CharClass
import TrieLexer.Grammar.Definition
import TrieLexer.Grammar.Labels

/-!
# Grammars

A grammar says which literals, identifiers, numbers and delimited runs an input consists of. It is
plain data. A greedy matcher describes a run that begins with an opener and, if it has a
terminator, takes everything up to it; the interior of such a run may have a grammar of its own,
so grammars are nested to any depth.

## Main definitions

* `GreedyMatcher` — the description of a run; its interior grammar is a parameter.
* `Lexicon` — everything in a grammar but its greedy matchers.
* `Grammar` — a lexicon and greedy matchers with interior grammars.
* `Lexicon.terminators` — the literals at which open-ended tokens stop.
-/

namespace TrieLexer

/-- A run that begins with a literal opener. -/
structure GreedyMatcher (γ : Type) where
  /-- The type of the run. -/
  kind : String
  /-- The opener. -/
  startsWith : String
  /-- The terminator. Without one the opener stands alone, as a keyword does. -/
  endsWith : Option String := none
  /-- A literal that ends the run early. -/
  haltsWith : Option String := none
  /-- The character that takes the meaning from a terminator after it. -/
  escapesWith : Option String := none
  /-- The grammar of the interior. -/
  subGrammar : Option γ := none
deriving Repr

namespace GreedyMatcher

variable {γ : Type}

/-- The terminator; an empty one counts as absent. -/
def terminator (m : GreedyMatcher γ) : Option String := m.endsWith.filter (!·.isEmpty)

/-- The halt marker; an empty one counts as absent. -/
def haltMarker (m : GreedyMatcher γ) : Option String := m.haltsWith.filter (!·.isEmpty)

/-- The characters of the escape, of which there may be at most one. -/
def escapeChars (m : GreedyMatcher γ) : List Char := (m.escapesWith.getD "").toList

end GreedyMatcher

/-- What happens when two definitions claim the same literal. -/
inductive ConflictPolicy where
  /-- The later definition replaces the earlier one, with a warning. -/
  | lastWins
  /-- The grammar is refused. -/
  | reject
deriving DecidableEq, Repr, Inhabited

/-- Everything in a grammar but its greedy matchers. -/
structure Lexicon where
  keywords : List Definition := []
  punctuation : List Definition := []
  delimiters : List Definition := []
  /-- Unless set, a number may begin with its decimal point. -/
  floatsHaveLeadingNumber : Bool := false
  identifierStart : CharClass := .identifierStart
  identifierContinue : CharClass := .identifierContinue
  labels : Labels := {}
  /-- Whether delimiters without a label become tokens. -/
  includeUnnamedDelimiters : Bool := false
  conflicts : ConflictPolicy := .lastWins
deriving DecidableEq, Repr

/-- A lexicon and the greedy matchers beside it. -/
structure Grammar extends Lexicon where
  greedyMatchers : List (GreedyMatcher Grammar) := []

/-- The literals of several definitions, in their order. -/
def literalsOf (definitions : List Definition) : List String :=
  definitions.flatMap Definition.literals

namespace Lexicon

/-- The literals at which open-ended tokens stop: the delimiters, the end of input (written as the
empty literal) and the punctuation, each once. -/
def terminators (lexicon : Lexicon) : List String :=
  (literalsOf lexicon.delimiters ++ [""] ++ literalsOf lexicon.punctuation).eraseDups

/-- Whether a text begins as an identifier does and goes on as one. -/
def isIdentifierShaped (lexicon : Lexicon) : List Char → Bool
  | [] => false
  | c :: cs => lexicon.identifierStart.contains c && cs.all lexicon.identifierContinue.contains

/-- The label of unnamed delimiters; without one they are left out of the tokens. -/
def unnamedLabel (lexicon : Lexicon) : Option String :=
  if lexicon.includeUnnamedDelimiters then some lexicon.labels.delimiter else none

end Lexicon

end TrieLexer
