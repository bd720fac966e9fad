/-!
# JSON values in writing

The values that this library writes, and their text without any blanks. Object fields keep the
order in which they are given.

## Main definitions

* `Value` — a JSON value with whole numbers only.
* `Value.render` — its text.
-/

namespace TrieLexer.Json

/-- A JSON value whose numbers are natural numbers. -/
inductive Value where
  | null
  | boolean (b : Bool)
  | number (n : Nat)
  | string (s : String)
  | array (items : List Value)
  | object (fields : List (String × Value))
deriving Repr

namespace Value

/-- How a character of a string is written. Only the quote, the backslash and the controls below
the space are escaped. -/
def escapedChar (c : Char) : List Char :=
  if c = '"' then ['\\', '"']
  else if c = '\\' then ['\\', '\\']
  else if c = '\x08' then ['\\', 'b']
  else if c = '\x0c' then ['\\', 'f']
  else if c = '\n' then ['\\', 'n']
  else if c = '\r' then ['\\', 'r']
  else if c = '\t' then ['\\', 't']
  else if c.toNat < 32 then
    ['\\', 'u', '0', '0', Nat.digitChar (c.toNat / 16), Nat.digitChar (c.toNat % 16)]
  else [c]

/-- A string in writing. -/
def renderString (s : String) : List Char := '"' :: s.toList.flatMap escapedChar ++ ['"']

mutual

/-- The characters of a value in writing. -/
def renderChars : Value → List Char
  | null => ['n', 'u', 'l', 'l']
  | boolean true => ['t', 'r', 'u', 'e']
  | boolean false => ['f', 'a', 'l', 's', 'e']
  | number n => Nat.toDigits 10 n
  | string s => renderString s
  | array items => '[' :: renderItems items ++ [']']
  | object fields => '{' :: renderFields fields ++ ['}']

/-- The items of an array in writing, with commas between them. -/
def renderItems : List Value → List Char
  | [] => []
  | [v] => renderChars v
  | v :: w :: vs => renderChars v ++ ',' :: renderItems (w :: vs)

/-- The fields of an object in writing, with commas between them. -/
def renderFields : List (String × Value) → List Char
  | [] => []
  | [f] => renderField f
  | f :: g :: fs => renderField f ++ ',' :: renderFields (g :: fs)

/-- A field of an object in writing. -/
def renderField : String × Value → List Char
  | (key, v) => renderString key ++ ':' :: renderChars v

end

/-- The text of a value. -/
def render (v : Value) : String := String.ofList v.renderChars

example : (object [("a", array [number 10, null]), ("b\n", string "x\"y")]).renderChars =
    "\x7b\"a\":[10,null],\"b\\n\":\"x\\\"y\"\x7d".toList := by decide

end Value

end TrieLexer.Json
