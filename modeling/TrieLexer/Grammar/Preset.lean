import TrieLexer.Grammar.Basic

/-!
# Ready-made grammars

## Main definitions

* `Preset` — the names of the ready-made grammars.
* `Preset.grammar` — the grammar of a name.
* `Preset.ofName?` — the preset that a name in writing stands for.
-/

namespace TrieLexer

/-- A ready-made grammar. -/
inductive Preset where
  | math
  | sql
  | json
  /-- Source text in the manner of C. -/
  | common
  /-- Tags, their attributes and values as separate tokens. -/
  | xmlLike
  /-- Whole tags, with the attributes scanned inside each. -/
  | markup
deriving DecidableEq, Repr, Inhabited

namespace Preset

/-- All presets, in the order in which they are listed. -/
def all : List Preset := [math, sql, json, common, xmlLike, markup]

/-- The name in writing. -/
def name : Preset → String
  | math => "math"
  | sql => "sql"
  | json => "json"
  | common => "common"
  | xmlLike => "xml_like"
  | markup => "markup"

/-- What the grammar covers, in a few words. -/
def description : Preset → String
  | math => "numbers, + - /, parentheses and the gcd keyword"
  | sql => "SELECT/FROM/WHERE queries with double-quoted strings"
  | json => "JSON documents"
  | common => "C-like operators, quoted strings and comments"
  | xmlLike => "tags, attributes and quoted values"
  | markup => "whole tags with nested attribute tokens, and comments"

/-- The preset of a name. -/
def ofName? (name : String) : Option Preset := all.find? (·.name == name)

theorem ofName?_name (p : Preset) : ofName? p.name = some p := by
  cases p <;> decide

/-! ### Parts of the grammars -/

/-- Line feed, space, carriage return and tab, without labels. -/
def whitespace : List Definition := ["\n", " ", "\r", "\t"].map .bare

/-- One literal under a label. -/
def one (label literal : String) : Definition := .named label (.one literal)

/-- Several literals under a label. -/
def several (label : String) (literals : List String) : Definition := .named label (.many literals)

/-- A run between two equal quotes on one line, with the backslash as escape. -/
def quotedLine (kind quote : String) : GreedyMatcher Grammar :=
  { kind, startsWith := quote, endsWith := some quote, haltsWith := some "\n",
    escapesWith := some "\\" }

/-- A run from an opener to a terminator. -/
def between (kind startsWith endsWith : String) : GreedyMatcher Grammar :=
  { kind, startsWith, endsWith := some endsWith }

/-- Identifiers of markup: colons, points and hyphens may follow the first character. -/
def markupIdentifier : CharClass := CharClass.identifierContinue.withExtra ":.-"

/-- The interior of a tag. -/
def attributes : Grammar :=
  { punctuation := [one "ASSIGNMENT" "=", one "SLASH" "/"]
    delimiters := whitespace
    greedyMatchers :=
      [between "DOUBLE_QUOTED_STRING" "\"" "\"", between "SINGLE_QUOTED_STRING" "'" "'"]
    identifierContinue := markupIdentifier }

/-! ### The grammars -/

/-- The grammar of a preset. -/
def grammar : Preset → Grammar
  | math =>
    { keywords := [.bare "gcd"]
      punctuation :=
        [several "OPERATOR" ["+", "-", "/"], one "PAREN_OPEN" "(", one "PAREN_CLOSE" ")",
          .bare ","]
      delimiters := whitespace }
  | sql =>
    { keywords :=
        [one "FUNCTION" "COUNT", several "BOOLEAN" ["TRUE", "FALSE"], one "NULL" "NULL",
          several "KEYWORD" ["SELECT", "FROM", "WHERE", "AND", "IS"]]
      punctuation :=
        [several "OPERATOR" ["+", "="], one "PAREN_OPEN" "(", one "PAREN_CLOSE" ")", .bare ","]
      delimiters := whitespace
      greedyMatchers := [quotedLine "DOUBLE_QUOTED_STRING" "\""] }
  | json =>
    { keywords := [several "BOOLEAN" ["true", "false"], one "NULL" "null"]
      punctuation :=
        [one "ARRAY_OPEN" "[", one "ARRAY_CLOSE" "]", one "ARRAY_ITEM_SEPARATOR" ",",
          one "OBJECT_OPEN" "\x7b", one "OBJECT_CLOSE" "\x7d", one "ASSIGNMENT" ":"]
      delimiters := whitespace
      greedyMatchers := [{ between "STRING" "\"" "\"" with escapesWith := some "\\" }] }
  | common =>
    { keywords := [several "BOOLEAN" ["true", "false"], one "NULL" "null", .bare "this"]
      punctuation :=
        [several "OPERATOR"
            ["?", "%", "+", "-", "*", "/", "!=", "=", "!", "<=", ">=", "<", ">", "^", "&&", "&",
              "||", "|"],
          one "ASSIGNMENT" ":"] ++
        ["[", ",", "(", ")", "\x7b", "\x7d", "]"].map .bare
      delimiters := [one "NEWLINE" "\n", .bare " ", .bare "\r", .bare "\t"]
      greedyMatchers :=
        [quotedLine "DOUBLE_QUOTED_STRING" "\"", quotedLine "SINGLE_QUOTED_STRING" "'",
          between "BACKTICK_STRING" "`" "`", between "SINGLE_LINE_COMMENT" "//" "\n",
          between "MULTI_LINE_COMMENT" "/*" "*/"] }
  | xmlLike =>
    { punctuation :=
        [one "START_TAG_OPEN" "<", one "START_TAG_SELF_CLOSE" "/>", one "END_TAG_OPEN" "</",
          one "TAG_CLOSE" ">", one "PROCESSING_TAG_OPEN" "<?", one "PROCESSING_TAG_CLOSE" "?>",
          one "MARKUP_TAG_OPEN" "<!", one "ASSIGNMENT" "="]
      delimiters := whitespace
      greedyMatchers :=
        [{ between "DOUBLE_QUOTED_STRING" "\"" "\"" with escapesWith := some "\\" },
          { between "SINGLE_QUOTED_STRING" "'" "'" with escapesWith := some "\\" }]
      identifierContinue := markupIdentifier }
  | markup =>
    { delimiters := whitespace
      greedyMatchers :=
        [{ between "TAG" "<" ">" with subGrammar := some attributes },
          between "COMMENT" "<!--" "-->"] }

end Preset

end TrieLexer
