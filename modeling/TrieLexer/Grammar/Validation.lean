import TrieLexer.Grammar.Basic
import TrieLexer.Grammar.Error

/-!
# Valid grammars

Some rules hold for a grammar whatever its literals have in common: no literal is empty, no
matcher's type is empty, and an escape is one character. They hold for every interior grammar too.
The first violation is reported, in the order keywords, punctuation, delimiters, greedy matchers.

## Main definitions

* `GreedyMatcher.escape` — the escape character.
* `Grammar.validate` — the first violation, if any.
-/

namespace TrieLexer

/-- The escape character. An empty escape counts as absent. -/
def GreedyMatcher.escape {γ : Type} (m : GreedyMatcher γ) : Except GrammarError (Option Char) :=
  match m.escapeChars with
  | [] => .ok none
  | [c] => .ok (some c)
  | _ => .error (.multiCharEscape m.kind (m.escapesWith.getD ""))

/-- Refuses an empty literal among definitions. -/
def refuseEmptyLiteral (kind : LiteralKind) (definitions : List Definition) :
    Except GrammarError Unit :=
  if (literalsOf definitions).any (·.isEmpty) then .error (.emptyLiteral kind) else .ok ()

/-- The rules for a lexicon. -/
def Lexicon.validate (lexicon : Lexicon) : Except GrammarError Unit := do
  refuseEmptyLiteral .keyword lexicon.keywords
  refuseEmptyLiteral .punctuation lexicon.punctuation
  refuseEmptyLiteral .delimiter lexicon.delimiters

/-- The rules for a matcher, its interior grammar apart. -/
def GreedyMatcher.validate {γ : Type} (m : GreedyMatcher γ) : Except GrammarError Unit := do
  if m.startsWith.isEmpty then .error (.emptyLiteral .opener)
  if m.kind.isEmpty then .error (.emptyMatcherType m.startsWith)
  let _ ← m.escape

mutual

/-- The first violation of the rules for grammars. -/
def Grammar.validate : Grammar → Except GrammarError Unit
  | ⟨lexicon, matchers⟩ => do
    lexicon.validate
    validateMatchers matchers

/-- The rules for a list of matchers. -/
def validateMatchers : List (GreedyMatcher Grammar) → Except GrammarError Unit
  | [] => .ok ()
  | m :: ms => do
    validateMatcher m
    validateMatchers ms

/-- The rules for a matcher and for its interior grammar. -/
def validateMatcher : GreedyMatcher Grammar → Except GrammarError Unit
  | ⟨kind, startsWith, endsWith, haltsWith, escapesWith, interior⟩ => do
    (⟨kind, startsWith, endsWith, haltsWith, escapesWith, none⟩ : GreedyMatcher Grammar).validate
    (validateInterior interior).mapError (.subGrammar kind)

/-- The rules for an interior grammar. -/
def validateInterior : Option Grammar → Except GrammarError Unit
  | none => .ok ()
  | some grammar => grammar.validate

end

end TrieLexer
