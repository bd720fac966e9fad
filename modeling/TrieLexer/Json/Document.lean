import TrieLexer.Json.StringLiteral

/-!
# JSON documents

Text is read into a tree that also says where the text stops being JSON. Whoever takes the tree
apart from left to right meets a flaw exactly when everything before it has been accepted, so the
first problem of a document, be it a flaw of the text or a value of the wrong shape, is the one
that is reported. A part that is skipped is only checked for flaws of the text, and less strictly
than one whose value is needed.

## Main definitions

* `Document`, `Entry` — the tree.
* `Document.ofText` — the tree of a text and what follows the value.
* `Document.skipFlaw` — the flaw that a reader meets who skips the value.
* `Document.readFlaw` — the flaw that a reader meets who takes in the whole value.
-/

namespace TrieLexer.Json

/-- An entry of an object. -/
inductive Entry (δ : Type) where
  /-- A key, which may be refused, and the value after it. -/
  | field (key : Except Flaw String) (value : δ)
  /-- No key, or a broken one. -/
  | broken (reading skipping : Flaw)

/-- A JSON text, as far as it is one. -/
inductive Document where
  | null
  | boolean (b : Bool)
  | number (value : Except Flaw Number)
  | string (value : Except Flaw String)
  /-- The items, and the flaw that stands in place of the closing bracket, if any. -/
  | array (items : List Document) (stop : Option Flaw)
  /-- The entries, and the flaw that stands in place of the closing brace, if any. -/
  | object (entries : List (Entry Document)) (stop : Option Flaw)
  /-- A string that breaks off. -/
  | brokenString (reading skipping : Flaw)
  /-- A word or a number that breaks off. -/
  | brokenScalar (reading skipping : Flaw)
  /-- No value. -/
  | missing (flaw : Flaw)

namespace Document

/-- Whether a character is a blank of JSON. -/
def isBlank (c : Char) : Bool := c == ' ' || c == '\n' || c == '\t' || c == '\r'

/-- The text from its first character that is no blank. -/
def skipBlank (cs : List Char) : List Char := cs.dropWhile isBlank

/-- The rest of a word at the front of a text, and the text after it. -/
def readWord : List Char → List Char → Except Flaw (List Char)
  | [], cs => .ok cs
  | _ :: _, [] => .error .truncated
  | w :: ws, c :: cs => if w = c then readWord ws cs else .error .malformed

/-- The document of a word. -/
def ofWord (word : List Char) (value : Document) (cs : List Char) :
    Document × Option (List Char) :=
  match readWord word cs with
  | .ok rest => (value, some rest)
  | .error flaw => (brokenScalar flaw flaw, none)

/-- The document of a front item. -/
def ofFront {α : Type} (value : Except Flaw α → Document) (broken : Flaw → Flaw → Document) :
    Front α → Document × Option (List Char)
  | .item reading rest => (value reading, some rest)
  | .broken reading skipping => (broken reading skipping, none)

/-- What follows a value inside a container. -/
inductive Continuation where
  /-- A comma, and the text after it. -/
  | more (rest : List Char)
  /-- The closing bracket, and the text after it. -/
  | done (rest : List Char)
  | flaw (f : Flaw)

/-- What follows a value in a container that ends with `close`. -/
def continuation (close : Char) (cs : List Char) : Continuation :=
  match skipBlank cs with
  | [] => .flaw .truncated
  | c :: rest => if c = ',' then .more rest else if c = close then .done rest else .flaw .malformed

mutual

/-- The value at the front of a text, and the text after it unless the value breaks off. The first
argument bounds the depth of the recursion; twice the length of the text is enough. -/
def readValue : Nat → List Char → Document × Option (List Char)
  | 0, _ => (missing .malformed, none)
  | fuel + 1, cs =>
    match skipBlank cs with
    | [] => (missing .truncated, none)
    | 'n' :: rest => ofWord ['u', 'l', 'l'] null rest
    | 't' :: rest => ofWord ['r', 'u', 'e'] (boolean true) rest
    | 'f' :: rest => ofWord ['a', 'l', 's', 'e'] (boolean false) rest
    | '"' :: rest => ofFront string brokenString (readString rest)
    | '[' :: rest =>
      match skipBlank rest with
      | [] => (array [] (some .truncated), none)
      | ']' :: rest => (array [] none, some rest)
      | rest =>
        let (items, stop, after) := readItems fuel rest
        (array items stop, after)
    | '{' :: rest =>
      match skipBlank rest with
      | [] => (object [] (some .truncated), none)
      | '}' :: rest => (object [] none, some rest)
      | rest =>
        let (entries, stop, after) := readEntries fuel rest
        (object entries stop, after)
    | c :: rest =>
      if c == '-' || c.isDigit then ofFront number brokenScalar (readNumber (c :: rest))
      else (missing .malformed, none)

/-- The items from here to the closing bracket, the flaw in its place, and the text after it. -/
def readItems : Nat → List Char → List Document × Option Flaw × Option (List Char)
  | 0, _ => ([], some .malformed, none)
  | fuel + 1, cs =>
    match readValue fuel cs with
    | (item, none) => ([item], some .malformed, none)
    | (item, some rest) =>
      match continuation ']' rest with
      | .flaw flaw => ([item], some flaw, none)
      | .done rest => ([item], none, some rest)
      | .more rest =>
        let (items, stop, after) := readItems fuel rest
        (item :: items, stop, after)

/-- The entries from here to the closing brace, the flaw in its place, and the text after it. -/
def readEntries : Nat → List Char → List (Entry Document) × Option Flaw × Option (List Char)
  | 0, _ => ([], some .malformed, none)
  | fuel + 1, cs =>
    match readEntry fuel cs with
    | (entry, none) => ([entry], some .malformed, none)
    | (entry, some rest) =>
      match continuation '}' rest with
      | .flaw flaw => ([entry], some flaw, none)
      | .done rest => ([entry], none, some rest)
      | .more rest =>
        let (entries, stop, after) := readEntries fuel rest
        (entry :: entries, stop, after)

/-- The entry at the front of a text, and the text after it unless the entry breaks off. -/
def readEntry : Nat → List Char → Entry Document × Option (List Char)
  | 0, _ => (.broken .malformed .malformed, none)
  | fuel + 1, cs =>
    match skipBlank cs with
    | [] => (.broken .truncated .truncated, none)
    | '"' :: rest =>
      match readString rest with
      | .broken reading skipping => (.broken reading skipping, none)
      | .item key rest =>
        match skipBlank rest with
        | [] => (.field key (missing .truncated), none)
        | ':' :: rest =>
          let (value, after) := readValue fuel rest
          (.field key value, after)
        | _ => (.field key (missing .malformed), none)
    | _ => (.broken .malformed .malformed, none)

end

/-- The document of a text, and what follows the value unless it breaks off. -/
def ofText (text : String) : Document × Option (List Char) :=
  let cs := text.toList
  readValue (2 * cs.length + 2) cs

/-! ### Flaws met on the way through a value -/

/-- The flaw of a refused value. -/
def refused {α : Type} : Except Flaw α → Option Flaw
  | .ok _ => none
  | .error flaw => some flaw

mutual

/-- The first flaw that skipping the value meets. -/
def skipFlaw : Document → Option Flaw
  | null | boolean _ | number _ | string _ => none
  | array items stop => (skipItems items).or stop
  | object entries stop => (skipEntries entries).or stop
  | brokenString _ skipping | brokenScalar _ skipping => some skipping
  | missing flaw => some flaw

/-- The first flaw that skipping the items meets. -/
def skipItems : List Document → Option Flaw
  | [] => none
  | item :: items => (skipFlaw item).or (skipItems items)

/-- The first flaw that skipping the entries meets. -/
def skipEntries : List (Entry Document) → Option Flaw
  | [] => none
  | entry :: entries => (skipEntry entry).or (skipEntries entries)

/-- The first flaw that skipping the entry meets. -/
def skipEntry : Entry Document → Option Flaw
  | .field _ value => skipFlaw value
  | .broken _ skipping => some skipping

end

mutual

/-- The first flaw that taking in the whole value meets, in at most `levels` levels of nesting. -/
def readFlaw (levels : Nat) : Document → Option Flaw
  | null | boolean _ => none
  | number value => refused value
  | string value => refused value
  | array items stop =>
    match levels with
    | 0 => some .malformed
    | levels + 1 => (readItemsFlaw levels items).or stop
  | object entries stop =>
    match levels with
    | 0 => some .malformed
    | levels + 1 => (readEntriesFlaw levels entries).or stop
  | brokenString reading _ | brokenScalar reading _ => some reading
  | missing flaw => some flaw

/-- The first flaw that taking in the items meets. -/
def readItemsFlaw (levels : Nat) : List Document → Option Flaw
  | [] => none
  | item :: items => (readFlaw levels item).or (readItemsFlaw levels items)

/-- The first flaw that taking in the entries meets. -/
def readEntriesFlaw (levels : Nat) : List (Entry Document) → Option Flaw
  | [] => none
  | entry :: entries => (readEntryFlaw levels entry).or (readEntriesFlaw levels entries)

/-- The first flaw that taking in the entry meets. -/
def readEntryFlaw (levels : Nat) : Entry Document → Option Flaw
  | .field key value => (refused key).or (readFlaw levels value)
  | .broken reading _ => some reading

end

end Document

end TrieLexer.Json
