import TrieLexer.Token

/-!
# Roles of literals

Each literal of a grammar comes to play one role. The proper beginnings of a keyword play the role
of an identifier in the making; this role and that of the ends of such identifiers are weak, and
give way to every other.

## Main definitions

* `Role` — what a literal stands for.
* `Role.isWeak` — whether the role gives way.
* `Role.description` — the role in words.
-/

namespace TrieLexer

/-- What a literal stands for in a grammar. -/
inductive Role where
  /-- A proper beginning of a keyword: an identifier so far. -/
  | identifierPrefix
  /-- The end of an identifier that began as a keyword does. -/
  | weakBoundary (label : Label)
  | keyword (label : Label)
  /-- The end of an open-ended token. -/
  | boundary (label : Label)
  | delimiter (label : Option Label)
  | punctuation (label : Label)
  /-- The opener of a terminated run. -/
  | opener (label : Label)
  /-- A terminator or halt marker of a run, or the end of input inside it. -/
  | close (label : Label)
  | decimalPoint
deriving DecidableEq, Repr, Inhabited

namespace Role

/-- Whether the role gives way to any other. -/
def isWeak : Role → Bool
  | identifierPrefix | weakBoundary _ => true
  | _ => false

/-- Whether the role marks the end of an open-ended token. -/
def isBoundary : Role → Bool
  | weakBoundary _ | boundary _ => true
  | _ => false

/-- The role in words. -/
def description : Role → String
  | identifierPrefix => "an identifier prefix"
  | weakBoundary label | boundary label => "the end of a `" ++ label ++ "` run"
  | keyword label => "keyword `" ++ label ++ "`"
  | delimiter (some label) => "delimiter `" ++ label ++ "`"
  | delimiter none => "an unnamed delimiter"
  | punctuation label => "punctuation `" ++ label ++ "`"
  | opener label => "the opener of `" ++ label ++ "`"
  | close label => "a terminator of `" ++ label ++ "`"
  | decimalPoint => "the decimal point"

end Role

end TrieLexer
