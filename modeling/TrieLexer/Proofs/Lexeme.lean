import TrieLexer.Scanner.Basic

/-!
# Lexemes

A scan cuts its input into lexemes, one after the other. A lexeme remembers how it came about: a
greedy run keeps the way in which it ended, and a run whose interior has a grammar of its own keeps
its three parts and the tokens of the interior. The tokens of a scan are those of its lexemes.

## Main definitions

* `Lexeme` — a stretch of input that scanning is done with.
* `Lexeme.tokens` — the tokens of a lexeme at a position.
* `listing` — the tokens of lexemes that follow each other.
* `spelled` — the text of lexemes that follow each other.

## Main results

* `listing_append` — the tokens of later lexemes are listed where the earlier ones end.
-/

namespace TrieLexer

open Text (byteLength)

/-- A stretch of input that scanning is done with. -/
inductive Lexeme where
  /-- Text under a label; without one it is left out of the tokens. -/
  | plain (text : List Char) (label : Option Label)
  /-- A greedy run whose interior has no grammar. -/
  | whole (text : List Char) (close : Close)
  /-- A greedy run whose interior has a grammar. The tokens count from the beginning of the
  interior. -/
  | nested (opener interior terminator : List Char) (close : Close) (tokens : List Token)

/-- The token of a text at a position. The empty text and text without a label have none. -/
def tokenAt (position : Nat) (text : List Char) : Option Label → List Token
  | none => []
  | some kind => if text.isEmpty then [] else [⟨String.ofList text, kind, position⟩]

namespace Lexeme

/-- The text of a lexeme. -/
def text : Lexeme → List Char
  | plain text _ => text
  | whole text _ => text
  | nested opener interior terminator _ _ => opener ++ interior ++ terminator

/-- The tokens of a lexeme at a position. -/
def tokens (position : Nat) : Lexeme → List Token
  | plain text label => tokenAt position text label
  | whole text close => tokenAt position text (some close.label)
  | nested opener interior terminator close tokens =>
    tokenAt position opener (some close.label) ++
      tokens.map (·.shifted (position + byteLength opener)) ++
      tokenAt (position + byteLength (opener ++ interior)) terminator (some close.label)

end Lexeme

/-- The text of lexemes that follow each other. -/
def spelled (lexemes : List Lexeme) : List Char := lexemes.flatMap Lexeme.text

@[simp] theorem spelled_nil : spelled [] = [] := rfl

@[simp] theorem spelled_cons (l : Lexeme) (ls : List Lexeme) :
    spelled (l :: ls) = l.text ++ spelled ls := rfl

@[simp] theorem spelled_append (ls ms : List Lexeme) :
    spelled (ls ++ ms) = spelled ls ++ spelled ms := List.flatMap_append

/-- The tokens of lexemes that follow each other from a position on. -/
def listing (position : Nat) : List Lexeme → List Token
  | [] => []
  | l :: ls => l.tokens position ++ listing (position + byteLength l.text) ls

@[simp] theorem listing_nil (position : Nat) : listing position [] = [] := rfl

@[simp] theorem listing_cons (position : Nat) (l : Lexeme) (ls : List Lexeme) :
    listing position (l :: ls) =
      l.tokens position ++ listing (position + byteLength l.text) ls := rfl

/-- The tokens of later lexemes are listed where the earlier ones end. -/
theorem listing_append (position : Nat) (ls ms : List Lexeme) :
    listing position (ls ++ ms) =
      listing position ls ++ listing (position + byteLength (spelled ls)) ms := by
  induction ls generalizing position with
  | nil => simp
  | cons l ls ih =>
    rw [List.cons_append, listing_cons, ih, listing_cons, spelled_cons, Text.byteLength_append,
      List.append_assoc, Nat.add_assoc]

end TrieLexer
