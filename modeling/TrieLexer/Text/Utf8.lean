/-!
# Decoding bytes

Bytes are decoded as UTF-8 from the front. Decoding stops at the end of the bytes, inside a
character that more bytes could complete, or at bytes that no character begins with.

## Main definitions

* `Decoded` — the characters of the longest well-formed front, its length, and how it ended.
* `decode` — decoding a list of bytes.
-/

namespace TrieLexer.Text

/-- How decoding ends. -/
inductive DecodeEnd where
  /-- All bytes are decoded. -/
  | complete
  /-- The bytes left over begin a character. -/
  | partway (rest : List UInt8)
  /-- The first `count` bytes left over belong to no character. -/
  | invalid (count : Nat)
deriving DecidableEq, Repr

/-- The outcome of decoding. -/
structure Decoded where
  text : List Char
  /-- The number of bytes decoded. -/
  length : Nat
  finish : DecodeEnd
deriving DecidableEq, Repr

/-- Whether a byte continues a character. -/
def isContinuation (b : UInt8) : Bool := decide (0x80 ≤ b.toNat) && decide (b.toNat < 0xC0)

/-- What the first byte of a character says: its number of bytes, its payload, and the range of the
second byte. -/
structure Lead where
  size : Nat
  payload : Nat
  low : Nat := 0x80
  high : Nat := 0xBF

/-- The lead of a first byte. The ranges keep out overlong forms, surrogates, and numbers beyond
the last character. -/
def lead? (b : UInt8) : Option Lead :=
  let n := b.toNat
  if n < 0x80 then some ⟨1, n, 0x80, 0xBF⟩
  else if n < 0xC2 then none
  else if n < 0xE0 then some ⟨2, n - 0xC0, 0x80, 0xBF⟩
  else if n = 0xE0 then some ⟨3, 0, 0xA0, 0xBF⟩
  else if n = 0xED then some ⟨3, 0xD, 0x80, 0x9F⟩
  else if n < 0xF0 then some ⟨3, n - 0xE0, 0x80, 0xBF⟩
  else if n = 0xF0 then some ⟨4, 0, 0x90, 0xBF⟩
  else if n < 0xF4 then some ⟨4, n - 0xF0, 0x80, 0xBF⟩
  else if n = 0xF4 then some ⟨4, 4, 0x80, 0x8F⟩
  else none

/-- The outcome of reading one character. -/
inductive CharFront where
  | char (c : Char) (size : Nat) (rest : List UInt8)
  | partway
  | invalid (count : Nat)

/-- The six bits that a continuation byte carries. -/
def continuationBits (b : UInt8) : Nat := b.toNat - 0x80

/-- Takes in further continuation bytes. `seen` bytes of the character have been read. -/
def readTail : Nat → Nat → Nat → List UInt8 → CharFront
  | 0, value, seen, rest => .char (Char.ofNat value) seen rest
  | _ + 1, _, _, [] => .partway
  | missing + 1, value, seen, b :: rest =>
    if isContinuation b then readTail missing (64 * value + continuationBits b) (seen + 1) rest
    else .invalid seen

/-- The character at the front of bytes. -/
def readChar (b : UInt8) (rest : List UInt8) : CharFront :=
  match lead? b with
  | none => .invalid 1
  | some lead =>
    if lead.size = 1 then .char (Char.ofNat lead.payload) 1 rest
    else match rest with
      | [] => .partway
      | second :: rest =>
        if lead.low ≤ second.toNat ∧ second.toNat ≤ lead.high then
          readTail (lead.size - 2) (64 * lead.payload + continuationBits second) 2 rest
        else .invalid 1

/-- Decodes bytes, of which `length` have been decoded before. The characters so far are given with
the newest first. The first argument bounds the number of characters. -/
def decodeFrom : Nat → List Char → Nat → List UInt8 → Decoded
  | 0, text, length, rest => ⟨text.reverse, length, .partway rest⟩
  | _ + 1, text, length, [] => ⟨text.reverse, length, .complete⟩
  | fuel + 1, text, length, b :: rest =>
    match readChar b rest with
    | .char c size rest => decodeFrom fuel (c :: text) (length + size) rest
    | .partway => ⟨text.reverse, length, .partway (b :: rest)⟩
    | .invalid count => ⟨text.reverse, length, .invalid count⟩

/-- Decodes bytes from the front. -/
def decode (bytes : List UInt8) : Decoded := decodeFrom (bytes.length + 1) [] 0 bytes

/-- The text of bytes that are all well-formed. -/
def decodeAll? (bytes : List UInt8) : Option String :=
  match decode bytes with
  | ⟨text, _, .complete⟩ => some (String.ofList text)
  | _ => none

example : decode [0x61, 0xC3, 0xA9, 0xF0, 0x9F] = ⟨['a', 'é'], 3, .partway [0xF0, 0x9F]⟩ := by
  decide
example : decode [0x61, 0xE2, 0x82, 0x20] = ⟨['a'], 1, .invalid 2⟩ := by decide

end TrieLexer.Text
