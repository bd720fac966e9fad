import TrieLexer.Automaton.Basic
import TrieLexer.Grammar.Validation

/-!
# Automata in the making

An automaton is built up definition by definition. Each node that a definition gives a behaviour
also records the role for which it was claimed. A weak role gives way to any other without a word;
two different strong roles on one node make the grammar ambiguous, and the grammar's policy decides
whether the later one wins or the grammar is refused.

## Main definitions

* `Site` — a node's behaviour and its claim.
* `Draft` — the automaton so far, with its warnings.
* `Assembly` — a building step, which may fail.
* `Draft.claim` — takes a node for a role.
* `Draft.onlyBoundaries`, `Draft.unclaim`, `Draft.redirect` — what is done to whole subtrees.
-/

namespace TrieLexer

/-- A node in the making. -/
structure Site where
  behaviour : Behaviour := {}
  /-- The role that the node has been claimed for. -/
  claim : Option Role := none
deriving DecidableEq, Repr, Inhabited

/-- An automaton in the making. -/
structure Draft where
  trie : Trie Site
  /-- The nested runs so far. -/
  runs : Array (NestedRun Automaton) := #[]
  /-- Opener and body of every terminated matcher. -/
  openers : List (NodeId × NodeId) := []
  /-- The warnings so far. -/
  warnings : Array Warning := #[]

/-- A step in building an automaton. A failed step keeps the warnings raised before it. -/
abbrev Assembly := ExceptT GrammarError (StateM Draft)

namespace Draft

/-- The root and the nodes of unknown text, identifiers, whole numbers and numbers with a point. -/
def start : Draft :=
  let (trie, _) := (Trie.empty : Trie Site).alloc
  let (trie, _) := trie.alloc
  let (trie, number) := trie.alloc
  let (trie, _) := trie.addChild number (.char '.')
  { trie }

/-- The site of a node. -/
def site (d : Draft) (n : NodeId) : Site := d.trie.content n

/-- The claim on a node. -/
def claim? (d : Draft) (n : NodeId) : Option Role := (d.site n).claim

/-- Records a claim. -/
def recordClaim (d : Draft) (n : NodeId) (role : Role) : Draft :=
  { d with trie := d.trie.modifyContent n fun site => { site with claim := some role } }

/-- Adds a warning. -/
def warn (d : Draft) (w : Warning) : Draft := { d with warnings := d.warnings.push w }

/-- Changes what a node does. -/
def modifyBehaviour (d : Draft) (n : NodeId) (f : Behaviour → Behaviour) : Draft :=
  { d with
    trie := d.trie.modifyContent n fun site => { site with behaviour := f site.behaviour } }

/-! ### Subtrees

The depth of a subtree is bounded by the number of nodes. -/

/-- Whether a node and all nodes below it are unclaimed or ends of open-ended tokens. -/
def onlyBoundariesWithin (d : Draft) : Nat → NodeId → Bool
  | 0, _ => false
  | depth + 1, n =>
    (d.claim? n).all Role.isBoundary &&
      (d.trie.edges n).all fun e => d.onlyBoundariesWithin depth e.2

/-- Whether a node and all nodes below it are unclaimed or ends of open-ended tokens. -/
def onlyBoundaries (d : Draft) (n : NodeId) : Bool := d.onlyBoundariesWithin d.trie.size n

/-- Drops the claims on a node and on all nodes below it. -/
def unclaimWithin : Nat → Trie Site → NodeId → Trie Site
  | 0, t, _ => t
  | depth + 1, t, n =>
    let t := t.modifyContent n fun site => { site with claim := none }
    (t.edges n).foldl (fun t e => unclaimWithin depth t e.2) t

/-- Drops the claims on a node and on all nodes below it. -/
def unclaim (d : Draft) (n : NodeId) : Draft :=
  { d with trie := unclaimWithin d.trie.size d.trie n }

/-- Removes a path below a node if it only ends open-ended tokens. -/
def pruneBoundary (d : Draft) (n : NodeId) (e : Symbol × NodeId) : Draft :=
  if d.onlyBoundaries e.2 then ({ d with trie := d.trie.removeChild n e.1 }).unclaim e.2 else d

/-- Removes the paths below a node that only end open-ended tokens; the role that the node had
before put them there. -/
def pruneBoundaries (d : Draft) (n : NodeId) : Draft :=
  (d.trie.edges n).foldl (·.pruneBoundary n) d

/-- Sends the unclaimed nodes below a node to a run's body, down to the first claimed ones. -/
def redirectWithin (body : NodeId) : Nat → Trie Site → NodeId → Trie Site
  | 0, t, _ => t
  | depth + 1, t, n =>
    (t.edges n).foldl (fun t e =>
      if (t.content e.2).claim.isSome then t
      else
        let t := t.modifyContent e.2 fun site =>
          { site with behaviour := { site.behaviour with fallback := .reroute body } }
        redirectWithin body depth t e.2) t

/-- Sends the unclaimed nodes below an opener to the body of its run, so that a longer literal that
is given up leads back into the run. An opener that something else has replaced is left alone. -/
def settleOpener (d : Draft) (opener body : NodeId) : Draft :=
  if (d.site opener).behaviour.fallback = .reroute body then
    { d with trie := redirectWithin body d.trie.size d.trie opener }
  else d

end Draft

namespace Assembly

/-- The nodes along a literal from a node, which are created if they are missing. -/
def path (n : NodeId) (literal : List Char) : Assembly (List Trie.Step) :=
  modifyGet fun d =>
    let (trie, steps) := d.trie.path n literal
    (steps, { d with trie })

/-- Takes a node for a role, and tells whether the role is to be carried out. -/
def claim (policy : ConflictPolicy) (n : NodeId) (literal : String) (role : Role) :
    Assembly Bool := do
  match (← get).claim? n with
  | none =>
    modify (·.recordClaim n role)
    return true
  | some existing =>
    if existing = role then return true
    else if existing.isWeak then
      modify (·.recordClaim n role)
      return true
    else if role.isWeak then return false
    else match policy with
      | .reject => throw (.conflict literal (some existing) role)
      | .lastWins =>
        modify fun d => (d.warn (.replaced literal existing role)).recordClaim n role
        return true

/-- Changes what a node does. -/
def modifyBehaviour (n : NodeId) (f : Behaviour → Behaviour) : Assembly Unit :=
  modify (·.modifyBehaviour n f)

/-- Removes the paths below a node that only end open-ended tokens. -/
def pruneBoundaries (n : NodeId) : Assembly Unit := modify (·.pruneBoundaries n)

end Assembly

end TrieLexer
