/-!
# Definitions of literals

Keywords, punctuation and delimiters are given by definitions: a bare literal, which takes the
default label of its category, or several literals under a label of their own.

## Main definitions

* `Matches` — one literal or a list of them.
* `Definition` — a bare literal or a named group.
* `Definition.label`, `Definition.literals` — what both forms come down to.
-/

namespace TrieLexer

/-- One literal or a list of them. The two are written differently and mean the same. -/
inductive Matches where
  | one (literal : String)
  | many (literals : List String)
deriving DecidableEq, Repr, Inhabited

/-- The literals, in their order. -/
def Matches.literals : Matches → List String
  | one literal => [literal]
  | many literals => literals

/-- An entry of the keywords, the punctuation or the delimiters. -/
inductive Definition where
  /-- A literal under the default label of its category. -/
  | bare (literal : String)
  /-- Literals under a label of their own. -/
  | named (label : String) (group : Matches)
deriving DecidableEq, Repr, Inhabited

namespace Definition

/-- The definition's own label. -/
def label : Definition → Option String
  | bare _ => none
  | named label _ => some label

/-- The literals, in their order. -/
def literals : Definition → List String
  | bare literal => [literal]
  | named _ group => group.literals

end Definition

end TrieLexer
