import TrieLexer.Token
import TrieLexer.Text.Column
import TrieLexer.Text.Quoted

/-!
# Tokens in writing

## Main definitions

* `Token.row` — a token as a row of a listing, with a given width for the type.
-/

namespace TrieLexer.Token

/-- A row of a listing: the position in six characters, the type in `width`, the quoted value. -/
def row (width : Nat) (t : Token) : String :=
  Text.alignRight 6 (toString t.position) ++ "  " ++ Text.alignLeft width t.kind ++ " " ++
    Text.quoted t.value

end TrieLexer.Token
