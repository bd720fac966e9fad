import TrieLexer.Json.Document
import TrieLexer.Text.Quoted

/-!
# Problems of a document

A document is refused because its text is not JSON, or because a value has the wrong shape.

## Main definitions

* `Expected` — what a place in a document asks for.
* `Found` — what kind of value stands there.
* `Mismatch` — a value of the wrong shape.
* `Problem` — a flaw of the text or a mismatch.
-/

namespace TrieLexer.Json

/-- What a place in a document asks for. -/
inductive Expected where
  | string
  | boolean
  | sequence
  /-- A whole number that counts bytes. -/
  | size
  | unit
  /-- Names of flags. -/
  | flags
  /-- A record of the given name. -/
  | record (name : String)
deriving DecidableEq, Repr

/-- What a place asks for, in words. -/
def Expected.description : Expected → String
  | string => "a string"
  | boolean => "a boolean"
  | sequence => "a sequence"
  | size => "usize"
  | unit => "unit"
  | flags => "a string value of `|` separated flags"
  | record name => "struct " ++ name

/-- What kind of value stands in a place. -/
inductive Found where
  | null
  | boolean (b : Bool)
  | number (n : Number)
  | string (s : String)
  | sequence
  | map
deriving DecidableEq, Repr

/-- What stands in a place, in words. -/
def Found.description : Found → String
  | null => "null"
  | boolean b => "boolean `" ++ (if b then "true" else "false") ++ "`"
  | number n => n.description
  | string s => "string " ++ Text.quoted s
  | sequence => "sequence"
  | map => "map"

/-- Why the text of flags is refused. -/
inductive FlagProblem where
  | emptyFlag
  | invalidHex
  | unknownName
deriving DecidableEq, Repr

/-- The reason in words. -/
def FlagProblem.description : FlagProblem → String
  | emptyFlag => "encountered empty flag"
  | invalidHex => "invalid hex flag"
  | unknownName => "unrecognized named flag"

/-- A value of the wrong shape. -/
inductive Mismatch where
  | wrongType (found : Found) (expected : Expected)
  | wrongValue (found : Found) (expected : Expected)
  /-- A record written as a list that is too short for it. -/
  | tooShort (length : Nat) (record : String) (fields : Nat)
  | missingField (name : String)
  | duplicateField (name : String)
  /-- A name that is none of the given alternatives. -/
  | unknownVariant (name : String) (alternatives : List String)
  /-- A value that fits no form of the given type. -/
  | noForm (type : String)
  | flags (problem : FlagProblem)
deriving DecidableEq, Repr

/-- Names between backticks, joined by `or`. -/
def alternativesText (names : List String) : String :=
  " or ".intercalate (names.map fun name => "`" ++ name ++ "`")

/-- The mismatch in words. -/
def Mismatch.description : Mismatch → String
  | wrongType found expected =>
    "invalid type: " ++ found.description ++ ", expected " ++ expected.description
  | wrongValue found expected =>
    "invalid value: " ++ found.description ++ ", expected " ++ expected.description
  | tooShort length record fields =>
    "invalid length " ++ toString length ++ ", expected struct " ++ record ++ " with " ++
      toString fields ++ " elements"
  | missingField name => "missing field `" ++ name ++ "`"
  | duplicateField name => "duplicate field `" ++ name ++ "`"
  | unknownVariant name alternatives =>
    "unknown variant `" ++ name ++ "`, expected " ++ alternativesText alternatives
  | noForm type => "data did not match any variant of untagged enum " ++ type
  | flags problem => problem.description

/-- Why a document is refused. -/
inductive Problem where
  | flaw (f : Flaw)
  | mismatch (m : Mismatch)
deriving DecidableEq, Repr

/-- The problem in words. -/
def Problem.description : Problem → String
  | flaw .truncated => "unexpected end of input"
  | flaw .malformed => "malformed text"
  | mismatch m => m.description

end TrieLexer.Json
