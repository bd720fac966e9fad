import TrieLexer.Text.GraphemeExtend
import TrieLexer.Text.Unprintable

/-!
# Quoted text

Text inside messages and listings is shown between double quotes. A quote and a backslash take a
backslash, four controls have a letter or digit of their own, and any other character that would
not show, or would be drawn together with the quote before it, is written as its code point.

## Main definitions

* `quoted` — a text between quotes.

## Main results

* `quotedChar_of_plain` — visible ASCII other than quote and backslash stands for itself.
-/

namespace TrieLexer.Text

/-- A character as its code point in lowercase hexadecimal, between braces. -/
def codePointEscape (c : Char) : List Char :=
  ['\\', 'u', '{'] ++ Nat.toDigits 16 c.toNat ++ ['}']

/-- Whether a character is visible ASCII or the space. -/
def isVisibleAscii (c : Char) : Bool := decide (32 ≤ c.toNat) && decide (c.toNat < 127)

/-- How one character is written between quotes. -/
def quotedChar (c : Char) : List Char :=
  if c = '"' then ['\\', '"']
  else if c = '\\' then ['\\', '\\']
  else if c = '\n' then ['\\', 'n']
  else if c = '\r' then ['\\', 'r']
  else if c = '\t' then ['\\', 't']
  else if c = '\x00' then ['\\', '0']
  else if isVisibleAscii c then [c]
  else if isGraphemeExtend c || isUnprintable c then codePointEscape c
  else [c]

/-- A text between double quotes. -/
def quoted (s : String) : String :=
  String.ofList ('"' :: s.toList.flatMap quotedChar ++ ['"'])

/-- Visible ASCII stands for itself, quote and backslash apart. -/
theorem quotedChar_of_plain {c : Char} (hv : isVisibleAscii c = true) (hq : c ≠ '"')
    (hb : c ≠ '\\') : quotedChar c = [c] := by
  have hn : c ≠ '\n' := by rintro rfl; revert hv; decide
  have hr : c ≠ '\r' := by rintro rfl; revert hv; decide
  have ht : c ≠ '\t' := by rintro rfl; revert hv; decide
  have hz : c ≠ '\x00' := by rintro rfl; revert hv; decide
  simp [quotedChar, hv, hq, hb, hn, hr, ht, hz]

end TrieLexer.Text
