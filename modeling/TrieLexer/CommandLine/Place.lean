import TrieLexer.Text.Bytes

/-!
# Places in a text

A place is given to readers as a line and a column, both counted from one; columns count
characters.

## Main definitions

* `Place` — a line and a column.
* `placeAt` — the place of a byte offset.
-/

namespace TrieLexer

/-- A line and a column, counted from one. -/
structure Place where
  line : Nat
  column : Nat
deriving DecidableEq, Repr, Inhabited

namespace Place

/-- The beginning of a text. -/
def first : Place := ⟨1, 1⟩

/-- The place after a character. -/
def next (p : Place) (c : Char) : Place :=
  if c = '\n' then ⟨p.line + 1, 1⟩ else ⟨p.line, p.column + 1⟩

/-- The place after a text. -/
def after (p : Place) (cs : List Char) : Place := cs.foldl next p

end Place

/-- The place of a byte offset that lies between two characters or at an end. -/
def placeAt? (text : String) (offset : Nat) : Option Place :=
  (Text.splitBytes? offset text.toList).map fun (before, _) => Place.first.after before

end TrieLexer
