/-!
# Tries in an arena

A trie keeps its nodes in one array in the order of their allocation, and a node is named by its
place there. Each node has at most one child for every symbol, and carries a content whose type is
a parameter. Literals are spelled along the children; the empty literal is spelled by the end of
input. Nothing keeps two edges from leading to one node, so a trie may share nodes and even contain
cycles.

## Main definitions

* `Symbol` — a character or the end of input.
* `Edges` — the children of a node.
* `Trie` — the arena.
* `Trie.path` — spells a literal from a node and creates what is missing.
* `Trie.descendant?` — the node that a literal spells, if it is there.

## Main results

* `Edges.find?_insert`, `Edges.find?_erase` — an edge list behaves as a map.
-/

namespace TrieLexer

/-- An input symbol. -/
inductive Symbol where
  | char (c : Char)
  | endOfInput
deriving DecidableEq, Repr, Inhabited

/-- The order of symbols: the end of input first, then by code point. -/
def Symbol.before : Symbol → Symbol → Bool
  | endOfInput, endOfInput => false
  | endOfInput, char _ => true
  | char _, endOfInput => false
  | char a, char b => decide (a.toNat < b.toNat)

/-- The symbols that spell a literal. -/
def spelling (literal : List Char) : List Symbol :=
  if literal.isEmpty then [.endOfInput] else literal.map .char

/-- The place of a node in its arena. Places are counted without a bound: an arena whose places are
words of 32 bits is like this one as long as it has no more than `2 ^ 32` nodes. -/
abbrev NodeId := Nat

/-- The node that every arena begins with. -/
def NodeId.root : NodeId := 0

/-- The children of a node, in the order of their symbols. -/
abbrev Edges := List (Symbol × NodeId)

namespace Edges

/-- The child for a symbol. -/
def find? : Edges → Symbol → Option NodeId
  | [], _ => none
  | (t, n) :: edges, s => if s = t then some n else find? edges s

/-- Binds a symbol to a child in place of any child it has. -/
def insert : Edges → Symbol → NodeId → Edges
  | [], s, n => [(s, n)]
  | (t, m) :: edges, s, n =>
    if s = t then (s, n) :: edges
    else if s.before t then (s, n) :: (t, m) :: edges
    else (t, m) :: insert edges s n

/-- Removes the child for a symbol. -/
def erase (edges : Edges) (s : Symbol) : Edges := edges.filter fun e => e.1 != s

@[simp] theorem find?_nil (s : Symbol) : find? [] s = none := rfl

theorem find?_cons (t s : Symbol) (n : NodeId) (edges : Edges) :
    find? ((t, n) :: edges) s = if s = t then some n else find? edges s := rfl

theorem find?_insert (edges : Edges) (s t : Symbol) (n : NodeId) :
    (edges.insert s n).find? t = if t = s then some n else edges.find? t := by
  induction edges with
  | nil => rfl
  | cons e edges ih =>
    obtain ⟨u, m⟩ := e
    simp only [insert]
    split
    · subst_vars; by_cases h : t = u <;> simp [find?_cons, h]
    · split
      · simp [find?_cons]
      · simp only [find?_cons, ih]
        by_cases h : t = u <;> grind

theorem find?_erase (edges : Edges) (s t : Symbol) :
    (edges.erase s).find? t = if t = s then none else edges.find? t := by
  induction edges with
  | nil => simp [erase]
  | cons e edges ih =>
    obtain ⟨u, m⟩ := e
    simp only [erase, List.filter_cons] at ih ⊢
    by_cases hu : u = s
    · simp only [hu, bne_self_eq_false, Bool.false_eq_true, ↓reduceIte, ih, find?_cons]
      by_cases ht : t = s <;> simp [ht]
    · simp only [bne_iff_ne, ne_eq, hu, not_false_eq_true, ↓reduceIte, find?_cons, ih]
      by_cases ht : t = u <;> grind

end Edges

/-- A node of a trie. -/
structure TrieNode (α : Type) where
  edges : Edges := []
  content : α
deriving Repr

/-- An arena of nodes, of which the first is the root. -/
structure Trie (α : Type) where
  nodes : Array (TrieNode α)
deriving Repr

namespace Trie

variable {α β : Type}

/-- A node met on the way along a literal, and whether the walk created it. -/
structure Step where
  node : NodeId
  created : Bool
deriving DecidableEq, Repr, Inhabited

/-- The number of nodes that were ever allocated, detached ones included. -/
def size (t : Trie α) : Nat := t.nodes.size

/-- The children of a node. -/
def edges (t : Trie α) (n : NodeId) : Edges := (t.nodes[n]?.map (·.edges)).getD []

/-- The child of a node for a symbol. -/
def child? (t : Trie α) (n : NodeId) (s : Symbol) : Option NodeId := (t.edges n).find? s

/-- Binds a symbol at a node to a node that exists, in place of any child it has. -/
def setChild (t : Trie α) (n : NodeId) (s : Symbol) (child : NodeId) : Trie α :=
  ⟨t.nodes.modify n fun node => { node with edges := node.edges.insert s child }⟩

/-- Removes the child of a node for a symbol. Whatever hangs below stays allocated. -/
def removeChild (t : Trie α) (n : NodeId) (s : Symbol) : Trie α :=
  ⟨t.nodes.modify n fun node => { node with edges := node.edges.erase s }⟩

/-- The node that symbols spell from a node. -/
def follow? (t : Trie α) (n : NodeId) (symbols : List Symbol) : Option NodeId :=
  symbols.foldlM t.child? n

/-- The node that a literal spells from a node. -/
def descendant? (t : Trie α) (n : NodeId) (literal : List Char) : Option NodeId :=
  t.follow? n (spelling literal)

/-- Changes the content of a node. -/
def modifyContent (t : Trie α) (n : NodeId) (f : α → α) : Trie α :=
  ⟨t.nodes.modify n fun node => { node with content := f node.content }⟩

/-- The same arena with other contents. -/
def map (f : α → β) (t : Trie α) : Trie β :=
  ⟨t.nodes.map fun node => { edges := node.edges, content := f node.content }⟩

variable [Inhabited α]

/-- An arena that holds the root alone. -/
def empty : Trie α := ⟨#[{ content := default }]⟩

/-- The content of a node. -/
def content (t : Trie α) (n : NodeId) : α := (t.nodes[n]?.map (·.content)).getD default

/-- Allocates a node without parents and children. -/
def alloc (t : Trie α) : Trie α × NodeId :=
  let n := t.size
  (⟨t.nodes.push { content := default }⟩, n)

/-- The child of a node for a symbol, which is created if it is missing. -/
def addChild (t : Trie α) (n : NodeId) (s : Symbol) : Trie α × Step :=
  match t.child? n s with
  | some child => (t, ⟨child, false⟩)
  | none =>
    let (t, child) := t.alloc
    (t.setChild n s child, ⟨child, true⟩)

/-- Walks along symbols and creates the children that are missing. -/
def extend (t : Trie α) (n : NodeId) : List Symbol → Trie α × List Step
  | [] => (t, [])
  | s :: symbols =>
    let (t, step) := t.addChild n s
    let (t, steps) := t.extend step.node symbols
    (t, step :: steps)

/-- Spells a literal from a node. -/
def path (t : Trie α) (n : NodeId) (literal : List Char) : Trie α × List Step :=
  t.extend n (spelling literal)

/-- The node that a literal spells from a node, which is created if it is missing. -/
def addDescendant (t : Trie α) (n : NodeId) (literal : List Char) : Trie α × NodeId :=
  let (t, steps) := t.path n literal
  (t, (steps.getLast?.map (·.node)).getD n)

end Trie

end TrieLexer
