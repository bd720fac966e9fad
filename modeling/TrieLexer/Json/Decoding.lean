import TrieLexer.Json.Problem

/-!
# Values out of documents

A record is written as an object, whose unknown fields are skipped, or as the list of its fields in
their order. Arrays and objects may be nested 127 levels deep on the way to the values that are
read; every reader of a container is told how many levels are left.

## Main definitions

* `Decoder` — a reader of one value.
* `Decoder.text`, `Decoder.truth`, `Decoder.size`, `Decoder.list`, `Decoder.optional`.
* `Decoder.Field`, `Decoder.record` — records.
* `Decoder.decode` — a whole text as one value.
-/

namespace TrieLexer.Json

/-- A reader of one value out of a document. -/
abbrev Decoder (α : Type) := Document → Except Problem α

namespace Decoder

variable {α : Type}

/-- The levels of nesting that a document may have. -/
def maxLevels : Nat := 127

/-- A flaw of the text as a problem. -/
def refuse (flaw : Flaw) : Except Problem α := .error (.flaw flaw)

/-- No problem unless there is a flaw. -/
def check : Option Flaw → Except Problem Unit
  | none => .ok ()
  | some flaw => refuse flaw

/-- The value of a number or string unless its text is refused. -/
def accept (value : Except Flaw α) : Except Problem α := value.mapError .flaw

/-- The problem of a value that is not what is expected. -/
def mismatch (expected : Expected) : Decoder α
  | .null => .error (.mismatch (.wrongType .null expected))
  | .boolean b => .error (.mismatch (.wrongType (.boolean b) expected))
  | .number value => do .error (.mismatch (.wrongType (.number (← accept value)) expected))
  | .string value => do .error (.mismatch (.wrongType (.string (← accept value)) expected))
  | .array .. => .error (.mismatch (.wrongType .sequence expected))
  | .object .. => .error (.mismatch (.wrongType .map expected))
  | .brokenString reading _ => refuse reading
  | .brokenScalar reading _ => refuse reading
  | .missing flaw => refuse flaw

/-- A string. -/
def text : Decoder String
  | .string value => accept value
  | d => mismatch .string d

/-- A boolean. -/
def truth : Decoder Bool
  | .boolean b => .ok b
  | d => mismatch .boolean d

/-- A whole number that counts bytes. -/
def size : Decoder Nat
  | .number value => do
    match ← accept value with
    | .natural n => .ok n
    | .negative n => .error (.mismatch (.wrongValue (.number (.negative n)) .size))
    | .real isNegative magnitude =>
      .error (.mismatch (.wrongType (.number (.real isNegative magnitude)) .size))
  | d => mismatch .size d

/-- A value or `null`. -/
def optional (decoder : Decoder α) : Decoder (Option α)
  | .null => .ok none
  | d => some <$> decoder d

/-! ### Lists -/

/-- The values of a list of items. -/
def items (decoder : Decoder α) : List Document → Except Problem (List α)
  | [] => .ok []
  | d :: ds => do
    let value ← decoder d
    let values ← items decoder ds
    return value :: values

/-- The values of an array, read by a decoder for the level inside. -/
def list (decoder : Decoder α) : Decoder (List α)
  | .array ds stop => do
    let values ← items decoder ds
    check stop
    return values
  | d => mismatch .sequence d

/-- A list where no level of nesting is left for one. -/
def listAtLimit : Decoder α
  | .array .. => refuse .malformed
  | d => mismatch .sequence d

/-! ### Records -/

/-- A field of a record: its name, and what reading its value does to the record so far. -/
structure Field (α : Type) where
  name : String
  read : α → Decoder α

/-- The record after its entries have been read; `seen` holds the names of the known fields so
far. -/
def entries (fields : List (Field α)) :
    List String → α → List (Entry Document) → Except Problem α
  | _, record, [] => .ok record
  | seen, record, .field key value :: rest => do
    let key ← accept key
    match fields.find? (·.name == key) with
    | none => do
      check value.skipFlaw
      entries fields seen record rest
    | some field =>
      if seen.contains key then .error (.mismatch (.duplicateField key))
      else do
        let record ← field.read record value
        entries fields (key :: seen) record rest
  | _, _, .broken reading _ :: _ => refuse reading

/-- The record after the items that stand for its fields have been read. The first `required`
fields have to be there; `done` counts the fields read so far, out of `total`. -/
def elements (name : String) (total required : Nat) (stop : Option Flaw) :
    Nat → List (Field α) → α → List Document → Except Problem α
  | _, [], record, [] => do
    check stop
    return record
  | _, [], _, _ :: _ => refuse .malformed
  | done, _ :: _, record, [] => do
    check stop
    if done < required then .error (.mismatch (.tooShort done name total))
    else return record
  | done, field :: fields, record, d :: ds => do
    let record ← field.read record d
    elements name total required stop (done + 1) fields record ds

/-- A record, read by fields for the level inside. The first `required` fields of a list have to be
there. -/
def record (name : String) (required : Nat) (fields : List (Field α)) (start : α) : Decoder α
  | .array ds stop => elements name fields.length required stop 0 fields start ds
  | .object es stop => do
    let result ← entries fields [] start es
    check stop
    return result
  | d => mismatch (.record name) d

/-- A record where no level of nesting is left for one. -/
def recordAtLimit (name : String) : Decoder α
  | .array .. => refuse .malformed
  | .object .. => refuse .malformed
  | d => mismatch (.record name) d

/-- The value of a required field. -/
def required (name : String) : Option α → Except Problem α
  | some value => .ok value
  | none => .error (.mismatch (.missingField name))

/-- A container, read by a decoder for the level inside if a level is left for it. -/
def nested (levels : Nat) (atLimit : Decoder α) (decoder : Nat → Decoder α) : Decoder α :=
  match levels with
  | 0 => atLimit
  | levels + 1 => decoder levels

/-- A whole text as one value, with blanks around it. -/
def decode (decoder : Decoder α) (source : String) : Except Problem α := do
  let (document, after) := Document.ofText source
  let value ← decoder document
  match after with
  | some rest => if (Document.skipBlank rest).isEmpty then return value else refuse .malformed
  | none => refuse .malformed

end Decoder

end TrieLexer.Json
