/-!
# Columns

Listings line up their entries by filling them with spaces to a width that counts characters. An
entry wider than its column is written whole.

## Main definitions

* `alignRight` — the spaces come first.
* `alignLeft` — the spaces come last.
-/

namespace TrieLexer.Text

/-- The spaces that fill `s` to `width` characters. -/
def filler (width : Nat) (s : String) : String :=
  String.ofList (List.replicate (width - s.toList.length) ' ')

/-- `s` at the right of a column of `width` characters. -/
def alignRight (width : Nat) (s : String) : String := filler width s ++ s

/-- `s` at the left of a column of `width` characters. -/
def alignLeft (width : Nat) (s : String) : String := s ++ filler width s

/-- An aligned entry has the width of its column, or its own if that is larger. -/
theorem length_alignLeft (width : Nat) (s : String) :
    (alignLeft width s).toList.length = max width s.toList.length := by
  simp only [alignLeft, filler, String.toList_append, String.toList_ofList, List.length_append,
    List.length_replicate]
  omega

end TrieLexer.Text
