import TrieLexer.Grammar.Basic
import TrieLexer.Token
import TrieLexer.Trie

/-!
# Automata

A grammar is carried out by an automaton whose states are the nodes of a trie. A node says where a
symbol without a child leads, and what happens when the walk lands on it. A greedy matcher with an
interior grammar owns a whole automaton for its interior.

## Main definitions

* `Fallback` — where symbols without a child lead.
* `Action` — what landing on a node does.
* `StateGraph` — an automaton without those of its interiors.
* `Automaton` — a state graph and its nested runs.
* `StateGraph.resolve` — the step that a symbol makes from a node.
-/

namespace TrieLexer

namespace NodeId

/-- The node of text that is nothing else. -/
def unknown : NodeId := 1

/-- The node of identifiers. -/
def identifier : NodeId := 2

/-- The node of whole numbers. -/
def number : NodeId := 3

/-- The node of numbers with a decimal point, which is the child of `number` for the point. -/
def float : NodeId := 4

end NodeId

/-- The place of a nested run in its automaton. -/
abbrev RunId := Nat

/-- The tests on characters by which a fallback may choose. -/
inductive CharTest where
  /-- The character may continue an identifier. -/
  | identifierContinue
  /-- The character is an ASCII digit. -/
  | digit
deriving DecidableEq, Repr, Inhabited

/-- Where a symbol without a child leads. -/
inductive Fallback where
  /-- To the same node. -/
  | stay
  /-- To where the symbol leads from another node. -/
  | reroute (target : NodeId)
  /-- To one of two nodes; the end of input fails every test. -/
  | classify (test : CharTest) (hit miss : NodeId)
  /-- To the node of identifiers, numbers or unknown text. -/
  | dispatch
  /-- The text so far goes out under a label, and the symbol is taken again from the root. -/
  | release (label : Label)
deriving DecidableEq, Repr, Inhabited

/-- How a greedy run ends at a terminator, at a halt marker or at the end of input. -/
structure Close where
  label : Label
  /-- Whether the run ends without its terminator. -/
  halted : Bool
  /-- The character that takes the meaning from a terminator after it. -/
  escape : Option Char
  /-- The length of the terminator in bytes. -/
  terminatorLength : Nat
  /-- The length of the opener in bytes. -/
  openerLength : Nat
  /-- The node to return to if the terminator is escaped. -/
  body : NodeId
  /-- The nested run, if the interior has a grammar. -/
  nested : Option RunId
deriving DecidableEq, Repr, Inhabited

/-- What landing on a node does. -/
inductive Action where
  | none
  /-- The text so far goes out. Without a label it is an unnamed delimiter. -/
  | literal (label : Option Label)
  /-- The text before the terminator goes out, and the terminator is taken again from the root. -/
  | boundary (label : Label) (terminatorLength : Nat)
  /-- A greedy run ends. -/
  | close (c : Close)
deriving DecidableEq, Repr, Inhabited

/-- What a node does. -/
structure Behaviour where
  fallback : Fallback := .stay
  action : Action := .none
  /-- The nested run whose body the node is. -/
  run : Option RunId := none
deriving DecidableEq, Repr, Inhabited

/-- An automaton without those of its interiors. -/
structure StateGraph where
  trie : Trie Behaviour
  identifierStart : CharClass
  identifierContinue : CharClass
  /-- The label of unnamed delimiters; without one they are left out. -/
  unnamed : Option Label
  /-- What the labels of unterminated runs begin with. -/
  haltedMark : String

/-- A greedy run whose interior has an automaton of its own. -/
structure NestedRun (α : Type) where
  automaton : α
  /-- The length of the opener in bytes. -/
  openerLength : Nat
  /-- So many bytes at the end of the interior may still belong to a terminator. -/
  hold : Nat

/-- A compiled grammar. -/
structure Automaton extends StateGraph where
  runs : List (NestedRun Automaton)

/-- What a symbol does at a node. -/
inductive Step where
  /-- The walk goes on at a node. -/
  | node (n : NodeId)
  /-- The text so far goes out under a label, and the symbol is taken again from the root. -/
  | release (label : Label)
deriving DecidableEq, Repr, Inhabited

namespace StateGraph

/-- What a node does. -/
def behaviour (g : StateGraph) (n : NodeId) : Behaviour := g.trie.content n

/-- Where the root sends a symbol without a child. -/
def dispatch (g : StateGraph) : Symbol → NodeId
  | .endOfInput => .unknown
  | .char c =>
    if g.identifierStart.contains c then .identifier
    else if c.isDigit then .number
    else .unknown

/-- Whether a symbol passes a test. -/
def passes (g : StateGraph) : CharTest → Symbol → Bool
  | _, .endOfInput => false
  | .identifierContinue, .char c => g.identifierContinue.contains c
  | .digit, .char c => c.isDigit

/-- The step of a symbol at a node, with at most `hops` reroutes on the way. -/
def resolveWithin (g : StateGraph) : Nat → NodeId → Symbol → Step
  | hops, n, s =>
    match g.trie.child? n s with
    | some child => .node child
    | none =>
      match (g.behaviour n).fallback with
      | .stay => .node n
      | .classify test hit miss => .node (if g.passes test s then hit else miss)
      | .dispatch => .node (g.dispatch s)
      | .release label => .release label
      | .reroute target =>
        match hops with
        | 0 => .node n
        | hops + 1 => g.resolveWithin hops target s

/-- The step of a symbol at a node: to its child, or else where the fallback says. There are never
more reroutes than nodes on the way. -/
def resolve (g : StateGraph) (n : NodeId) (s : Symbol) : Step := g.resolveWithin g.trie.size n s

end StateGraph

end TrieLexer
