import TrieLexer.Json.Decoding
import TrieLexer.Json.Value
import TrieLexer.Token

/-!
# Tokens and documents

A token is written as a JSON object with the fields `value`, `type` and `position`, and read from
one.

## Main definitions

* `Token.toJson` — the document of a token.
* `Token.read` — the token of a document.
-/

namespace TrieLexer.Token

open Json (Decoder Problem Value)

/-- The document of a token. -/
def toJson (t : Token) : Value :=
  .object
    [("value", .string t.value), ("type", .string t.kind), ("position", .number t.position)]

/-- A token so far. -/
structure PartialToken where
  value : Option String := none
  kind : Option String := none
  position : Option Nat := none

/-- The fields of a token. -/
def PartialToken.fields : List (Json.Decoder.Field PartialToken) :=
  [⟨"value", fun t d => return { t with value := some (← Decoder.text d) }⟩,
    ⟨"type", fun t d => return { t with kind := some (← Decoder.text d) }⟩,
    ⟨"position", fun t d => return { t with position := some (← Decoder.size d) }⟩]

/-- The token, if all of its fields are there. -/
def PartialToken.complete (t : PartialToken) : Except Problem Token := do
  let value ← Decoder.required "value" t.value
  let kind ← Decoder.required "type" t.kind
  let position ← Decoder.required "position" t.position
  return { value, kind, position }

/-- The token of a document. -/
def read (levels : Nat) : Decoder Token := fun d => do
  let draft ← Decoder.nested levels (Decoder.recordAtLimit "Token")
    (fun _ => Decoder.record "Token" 3 PartialToken.fields {}) d
  draft.complete

end TrieLexer.Token
