import TrieLexer.Text.Alphabetic
import TrieLexer.Text.Numeric

/-!
# Character classes

A class is a choice among five predefined groups of characters, together with single characters.
The choice is kept as eight flag bits, of which the groups use the lower five; the other three bits
are carried along and admit nothing.

## Main definitions

* `CharGroup` — the predefined groups.
* `CharFlags` — the chosen groups, as bits.
* `CharClass` — chosen groups and extra characters.
* `CharClass.contains` — membership of a character.
-/

namespace TrieLexer

/-- A predefined group of characters. -/
inductive CharGroup where
  /-- `a` to `z` and `A` to `Z` -/
  | asciiLetters
  /-- `0` to `9` -/
  | asciiDigits
  /-- `_` -/
  | underscore
  /-- the characters with the property Alphabetic -/
  | unicodeLetters
  /-- the characters of a numeric general category -/
  | unicodeDigits
deriving DecidableEq, Repr

namespace CharGroup

/-- All groups, in the order in which they are written. -/
def all : List CharGroup :=
  [asciiLetters, asciiDigits, underscore, unicodeLetters, unicodeDigits]

/-- The written name of a group. -/
def name : CharGroup → String
  | asciiLetters => "ASCII_LETTERS"
  | asciiDigits => "ASCII_DIGITS"
  | underscore => "UNDERSCORE"
  | unicodeLetters => "UNICODE_LETTERS"
  | unicodeDigits => "UNICODE_DIGITS"

/-- The flag bit of a group. -/
def bit : CharGroup → UInt8
  | asciiLetters => 1
  | asciiDigits => 2
  | underscore => 4
  | unicodeLetters => 8
  | unicodeDigits => 16

/-- The characters of a group. -/
def contains : CharGroup → Char → Bool
  | asciiLetters, c => c.isAlpha
  | asciiDigits, c => c.isDigit
  | underscore, c => c == '_'
  | unicodeLetters, c => Text.isAlphabetic c
  | unicodeDigits, c => Text.isNumeric c

end CharGroup

/-- A choice of groups, as flag bits. -/
structure CharFlags where
  /-- One bit for each chosen group; bits of no group are kept. -/
  bits : UInt8 := 0
deriving DecidableEq, Repr, Inhabited

namespace CharFlags

/-- Whether a group is chosen. -/
def has (flags : CharFlags) (group : CharGroup) : Bool := flags.bits &&& group.bit != 0

/-- The choice of exactly the listed groups. -/
def ofGroups (groups : List CharGroup) : CharFlags :=
  ⟨groups.foldl (fun bits group => bits ||| group.bit) 0⟩

/-- The bits that belong to no group. -/
def unnamedBits (flags : CharFlags) : UInt8 :=
  flags.bits &&& ~~~(ofGroups CharGroup.all).bits

end CharFlags

/-- A set of characters, given by groups and single characters. -/
structure CharClass where
  /-- The chosen groups. -/
  flags : CharFlags := {}
  /-- Characters admitted besides the groups. -/
  extra : String := ""
deriving DecidableEq, Repr, Inhabited

namespace CharClass

/-- ASCII letters and the underscore. -/
def identifierStart : CharClass := { flags := .ofGroups [.asciiLetters, .underscore] }

/-- ASCII letters, ASCII digits and the underscore. -/
def identifierContinue : CharClass :=
  { flags := .ofGroups [.asciiLetters, .asciiDigits, .underscore] }

/-- The class with more single characters. -/
def withExtra (k : CharClass) (chars : String) : CharClass := { k with extra := k.extra ++ chars }

/-- Whether a character is in the class. -/
def contains (k : CharClass) (c : Char) : Bool :=
  CharGroup.all.any (fun group => k.flags.has group && group.contains c) ||
    k.extra.toList.contains c

end CharClass

end TrieLexer
