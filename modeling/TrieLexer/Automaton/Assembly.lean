import TrieLexer.Automaton.Draft

/-!
# Building the automaton of a grammar

The parts of a grammar are built in a fixed order, and later parts see the nodes of earlier ones:
first the open-ended categories with the ends of their tokens, then keywords, greedy matchers,
delimiters and punctuation, and last the decimal point at the root.

A terminated greedy matcher gets a body of its own off the root. Its opener reroutes there, so the
first symbol after the opener still finds a longer literal that begins with the opener, and every
later one finds only the terminator, the halt marker and the end of input.

## Main definitions

* `Grammar.compile` — the automaton of a grammar, with the warnings raised on the way.
-/

namespace TrieLexer

/-- The outcome of building an automaton. -/
structure Compilation where
  result : Except GrammarError Automaton
  warnings : List Warning

namespace Lexicon

variable (lexicon : Lexicon)

/-- The fallback of whatever is an identifier so far. -/
def identifierFallback : Fallback := .classify .identifierContinue .identifier .unknown

/-- Gives the nodes before the last one of a path, where they are new, a fallback. -/
def rerouteCreated (steps : List Trie.Step) (target : NodeId) : Assembly Unit :=
  steps.dropLast.forM fun step =>
    if step.created then
      Assembly.modifyBehaviour step.node fun b => { b with fallback := .reroute target }
    else pure ()

/-- Ends the open-ended token at a node before one terminator. -/
def endBefore (n : NodeId) (label : Label) (weak : Bool) (terminator : String) :
    Assembly Unit := do
  let steps ← Assembly.path n terminator.toList
  rerouteCreated steps .unknown
  match steps.getLast? with
  | none => pure ()
  | some last =>
    let role := if weak then Role.weakBoundary label else Role.boundary label
    if ← Assembly.claim lexicon.conflicts last.node terminator role then
      Assembly.modifyBehaviour last.node fun b =>
        { b with
          action := .boundary label (Text.byteLength terminator.toList)
          fallback := .stay }

/-- Ends the open-ended token at a node before every terminator. -/
def endBeforeTerminators (n : NodeId) (label : Label) (weak : Bool) : Assembly Unit :=
  lexicon.terminators.forM (lexicon.endBefore n label weak)

/-! ### Open-ended categories -/

/-- Builds unknown text, identifiers, whole numbers and numbers with a point. A terminator that
begins with a point may already have claimed the node of the point. -/
def buildCategories : Assembly Unit := do
  let labels := lexicon.labels
  Assembly.modifyBehaviour .identifier fun b => { b with fallback := identifierFallback }
  Assembly.modifyBehaviour .number fun b =>
    { b with fallback := .classify .digit .number .unknown }
  lexicon.endBeforeTerminators .unknown labels.unknown false
  lexicon.endBeforeTerminators .identifier labels.identifier false
  lexicon.endBeforeTerminators .number labels.number false
  if ← Assembly.claim lexicon.conflicts .float "." .decimalPoint then
    Assembly.modifyBehaviour .float fun b =>
      { b with action := .none, fallback := .classify .digit .float .unknown }
    lexicon.endBeforeTerminators .float labels.decimal false

/-! ### Keywords -/

/-- Builds a proper beginning of a keyword: an identifier so far. -/
def buildPrefix (n : NodeId) (text : String) : Assembly Unit := do
  if (← get).claim? n = some .identifierPrefix then return
  if ← Assembly.claim lexicon.conflicts n text .identifierPrefix then
    Assembly.modifyBehaviour n fun b => { b with action := .none, fallback := identifierFallback }
    lexicon.endBeforeTerminators n lexicon.labels.identifier true

/-- The nodes before the last one of a path along a literal, each with the text that it spells. -/
def properPrefixes (literal : String) (steps : List Trie.Step) : List (Trie.Step × String) :=
  steps.dropLast.zipIdx.map fun (step, i) => (step, String.ofList (literal.toList.take (i + 1)))

/-- Builds a keyword. Longer words are identifiers. -/
def buildKeyword (label : Label) (literal : String) : Assembly Unit := do
  let steps ← Assembly.path .root literal.toList
  (properPrefixes literal steps).forM fun (step, text) => lexicon.buildPrefix step.node text
  match steps.getLast? with
  | none => pure ()
  | some last =>
    if ← Assembly.claim lexicon.conflicts last.node literal (.keyword label) then
      Assembly.modifyBehaviour last.node fun b =>
        { b with action := .none, fallback := identifierFallback }
      lexicon.endBeforeTerminators last.node label false

/-- Builds all keywords. -/
def buildKeywords : Assembly Unit :=
  lexicon.keywords.forM fun definition =>
    definition.literals.forM
      (lexicon.buildKeyword (definition.label.getD lexicon.labels.keyword))

/-- Spells a literal from the root. A new node on the way is an identifier so far if its text has
that shape, and else sends the next symbol through unknown text. -/
def rootPath (literal : String) : Assembly NodeId := do
  let steps ← Assembly.path .root literal.toList
  (properPrefixes literal steps).forM fun (step, text) =>
    if !step.created then pure ()
    else if lexicon.isIdentifierShaped text.toList then lexicon.buildPrefix step.node text
    else Assembly.modifyBehaviour step.node fun b => { b with fallback := .reroute .unknown }
  return (steps.getLast?.map (·.node)).getD .root

/-! ### Greedy matchers -/

/-- Ends a greedy run at one of its ends. -/
def endRun (terminator : String) (close : Close) : Assembly Unit := do
  let steps ← Assembly.path close.body terminator.toList
  rerouteCreated steps close.body
  match steps.getLast? with
  | none => pure ()
  | some last =>
    if ← Assembly.claim lexicon.conflicts last.node terminator (.close close.label) then
      Assembly.modifyBehaviour last.node fun b =>
        { b with fallback := .stay, action := .close close }

/-- So many bytes at the end of the interior of a run may still belong to its end. -/
def holdOf (m : GreedyMatcher Compilation) (terminator : String) : Nat :=
  max (Text.byteLength terminator.toList)
    (Text.byteLength (m.haltMarker.getD "").toList) - 1

/-- Adds the nested run of a matcher whose interior has a grammar. -/
def addNestedRun (m : GreedyMatcher Compilation) (terminator : String) :
    Assembly (Option RunId) := do
  match m.subGrammar with
  | none => return none
  | some interior =>
    modify fun d => interior.warnings.foldl Draft.warn d
    match interior.result with
    | .error source => throw (.subGrammar m.kind source)
    | .ok automaton =>
      modifyGet fun d =>
        (some d.runs.size,
          { d with
            runs := d.runs.push
              { automaton
                openerLength := Text.byteLength m.startsWith.toList
                hold := holdOf m terminator } })

/-- Builds a greedy matcher that has a terminator. -/
def buildRun (m : GreedyMatcher Compilation) (terminator : String) : Assembly Unit := do
  let opener ← lexicon.rootPath m.startsWith
  let body ← modifyGet fun d =>
    let (trie, body) := d.trie.alloc
    (body, { d with trie })
  let escape ← ExceptT.mk (pure m.escape)
  let nested ← addNestedRun m terminator
  Assembly.modifyBehaviour body fun b => { b with run := nested }
  if ← Assembly.claim lexicon.conflicts opener m.startsWith (.opener m.kind) then
    Assembly.pruneBoundaries opener
    Assembly.modifyBehaviour opener fun b => { b with action := .none, fallback := .reroute body }
    modify fun d => { d with openers := d.openers ++ [(opener, body)] }
  let halted := lexicon.labels.halted m.kind
  let close (label : Label) (halted : Bool) (escape : Option Char) (terminator : String) : Close :=
    { label, halted, escape, body, nested
      terminatorLength := Text.byteLength terminator.toList
      openerLength := Text.byteLength m.startsWith.toList }
  lexicon.endRun terminator (close m.kind false escape terminator)
  lexicon.endRun "" (close halted true none "")
  match m.haltMarker with
  | none => pure ()
  | some marker => lexicon.endRun marker (close halted true escape marker)

/-- Builds all greedy matchers. Without a terminator, an opener is a keyword. -/
def buildMatchers (matchers : List (GreedyMatcher Compilation)) : Assembly Unit :=
  matchers.forM fun m =>
    match m.terminator with
    | none => lexicon.buildKeyword m.kind m.startsWith
    | some terminator => lexicon.buildRun m terminator

/-! ### Delimiters and punctuation -/

/-- Builds a delimiter, which goes out as soon as it is complete. -/
def buildDelimiter (label : Option Label) (literal : String) : Assembly Unit := do
  let n ← lexicon.rootPath literal
  if ← Assembly.claim lexicon.conflicts n literal (.delimiter label) then
    Assembly.modifyBehaviour n fun b => { b with action := .literal label }

/-- Builds all delimiters. -/
def buildDelimiters : Assembly Unit :=
  lexicon.delimiters.forM fun definition =>
    definition.literals.forM (lexicon.buildDelimiter definition.label)

/-- Builds a punctuation literal, which goes out when the next symbol makes no longer literal. -/
def buildMark (label : Label) (literal : String) : Assembly Unit := do
  let n ← lexicon.rootPath literal
  if ← Assembly.claim lexicon.conflicts n literal (.punctuation label) then
    Assembly.pruneBoundaries n
    Assembly.modifyBehaviour n fun b => { b with action := .none, fallback := .release label }

/-- Builds all punctuation. -/
def buildPunctuation : Assembly Unit :=
  lexicon.punctuation.forM fun definition =>
    definition.literals.forM
      (lexicon.buildMark (definition.label.getD lexicon.labels.punctuation))

/-- Lets a number begin with its decimal point, if the grammar allows it. -/
def bindLeadingPoint : Assembly Unit := do
  if lexicon.floatsHaveLeadingNumber then return
  let d ← get
  match d.trie.child? .root (.char '.') with
  | none => pure ()
  | some child =>
    let existing := d.claim? child
    match lexicon.conflicts with
    | .reject => throw (.conflict "." existing .decimalPoint)
    | .lastWins => modify (·.warn (.leadingPoint existing))
  modify fun d => { d with trie := d.trie.setChild .root (.char '.') .float }

/-! ### The whole -/

/-- Builds everything. -/
def build (matchers : List (GreedyMatcher Compilation)) : Assembly Unit := do
  lexicon.buildCategories
  lexicon.buildKeywords
  lexicon.buildMatchers matchers
  lexicon.buildDelimiters
  lexicon.buildPunctuation
  lexicon.bindLeadingPoint

/-- The automaton of a finished draft. -/
def finish (d : Draft) : Automaton :=
  let settled := d.openers.foldl (fun d o => d.settleOpener o.1 o.2) d
  let done := settled.modifyBehaviour .root fun b => { b with fallback := .dispatch }
  { trie := done.trie.map (·.behaviour)
    identifierStart := lexicon.identifierStart
    identifierContinue := lexicon.identifierContinue
    unnamed := lexicon.unnamedLabel
    haltedMark := lexicon.labels.haltedMark
    runs := done.runs.toList }

/-- The automaton of a lexicon and of matchers whose interiors are compiled. -/
def assemble (matchers : List (GreedyMatcher Compilation)) : Compilation :=
  let (result, d) := (lexicon.build matchers).run.run .start
  { result := result.map fun _ => lexicon.finish d, warnings := d.warnings.toList }

end Lexicon

mutual

/-- The automaton of a grammar, or the reason why there is none. -/
def Grammar.compile : Grammar → Compilation
  | ⟨lexicon, matchers⟩ =>
    match Grammar.validate ⟨lexicon, matchers⟩ with
    | .error e => { result := .error e, warnings := [] }
    | .ok () => lexicon.assemble (compileMatchers matchers)

/-- Greedy matchers with their interiors compiled. -/
def compileMatchers : List (GreedyMatcher Grammar) → List (GreedyMatcher Compilation)
  | [] => []
  | m :: ms => compileMatcher m :: compileMatchers ms

/-- A greedy matcher with its interior compiled. -/
def compileMatcher : GreedyMatcher Grammar → GreedyMatcher Compilation
  | ⟨kind, startsWith, endsWith, haltsWith, escapesWith, interior⟩ =>
    ⟨kind, startsWith, endsWith, haltsWith, escapesWith, compileInterior interior⟩

/-- A compiled interior. -/
def compileInterior : Option Grammar → Option Compilation
  | none => none
  | some grammar => some grammar.compile

end

end TrieLexer
