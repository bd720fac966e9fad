import TrieLexer.Text.Bytes

/-!
# Tokens

A token is a stretch of the input with its type and its byte offset in the whole input.

## Main definitions

* `Token` — value, type and position.
* `Token.stop` — the offset after the last byte.
* `Token.shifted` — the token further on in the input.
* `Token.isHalted` — whether a token reports a run that was never terminated.
-/

namespace TrieLexer

/-- A token type such as `NUMBER`. -/
abbrev Label := String

/-- A typed stretch of the input. -/
structure Token where
  /-- The text of the token. -/
  value : String
  /-- The type of the token. -/
  kind : Label
  /-- The byte offset of the token in the whole input. Offsets are counted without a bound: words of
  64 bits count them alike in an input of less than `2 ^ 64` bytes. -/
  position : Nat
deriving DecidableEq, Repr, Inhabited

namespace Token

/-- The byte offset after the last byte of the token. -/
def stop (t : Token) : Nat := t.position + Text.byteLength t.value.toList

/-- The token `offset` bytes further on. -/
def shifted (t : Token) (offset : Nat) : Token := { t with position := t.position + offset }

/-- Whether the type begins with `mark`, the mark of unterminated runs. No token is halted under
the empty mark. -/
def isHalted (t : Token) (mark : String) : Bool :=
  !mark.isEmpty && mark.toList.isPrefixOf t.kind.toList

@[simp] theorem shifted_zero (t : Token) : t.shifted 0 = t := rfl

@[simp] theorem shifted_shifted (t : Token) (m n : Nat) :
    (t.shifted m).shifted n = t.shifted (m + n) := by
  simp [shifted, Nat.add_assoc]

end Token

end TrieLexer
