/-!
# Labels of the token categories

The labels that tokens take when their definition names none.

## Main definitions

* `Labels` — one label for each category.
* `Labels.decimal` — the label of numbers with a decimal point.
* `Labels.halted` — the label of an unterminated run.
-/

namespace TrieLexer

/-- The default label of each category. -/
structure Labels where
  keyword : String := "KEYWORD"
  punctuation : String := "PUNCTUATION"
  /-- The label of unnamed delimiters, where these are kept. -/
  delimiter : String := "DELIMITER"
  identifier : String := "IDENTIFIER"
  number : String := "NUMBER"
  /-- The label of numbers with a decimal point, if it differs from that of numbers. -/
  float : Option String := none
  unknown : String := "UNKNOWN"
  /-- What the label of an unterminated run puts before the run's type. -/
  haltedMark : String := "HALTED_"
deriving DecidableEq, Repr

namespace Labels

/-- The label of numbers with a decimal point. -/
def decimal (labels : Labels) : String := labels.float.getD labels.number

/-- The label of an unterminated run of type `kind`. -/
def halted (labels : Labels) (kind : String) : String := labels.haltedMark ++ kind

end Labels

end TrieLexer
