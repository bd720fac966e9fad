import TrieLexer.Automaton.Assembly
import TrieLexer.Proofs.Reading

/-!
# The places of nodes

The node of an automaton is reached from the root, from the node of an open-ended category or from
the body of a greedy run, along a path of symbols. This origin and this path are the place of the
node. The node of numbers with a point is an origin of its own, although it is the child of the
node of whole numbers.

## Main definitions

* `Origin` — where a path begins.
* `Locus` — an origin and a path.
* `Locus.down`, `Locus.walk` — the place of a child and of a descendant.
* `Locus.least` — how many bytes are pending at least when the walk stands on a node.

## Main results

* `Locus.least_walk` — every symbol on the way takes its bytes.
-/

namespace TrieLexer

open Text (byteLength)

/-- Where the path to a node begins. -/
inductive Origin where
  | root
  | unknown
  | identifier
  | number
  | float
  /-- The body of a matcher's run, which may be nested. -/
  | body (n : NodeId) (m : GreedyMatcher Compilation) (nested : Option RunId)

/-- An origin and a path from it. -/
@[ext]
structure Locus where
  origin : Origin
  path : List Symbol := []

/-- The text of symbols that follow each other. -/
def pathText (path : List Symbol) : List Char := path.flatMap Symbol.text

@[simp] theorem pathText_nil : pathText [] = [] := rfl

@[simp] theorem pathText_append (p q : List Symbol) :
    pathText (p ++ q) = pathText p ++ pathText q := List.flatMap_append

@[simp] theorem pathText_singleton (s : Symbol) : pathText [s] = s.text := by
  simp [pathText]

theorem pathText_map_char (cs : List Char) : pathText (cs.map .char) = cs := by
  induction cs with
  | nil => rfl
  | cons c cs ih => exact congrArg (c :: ·) ih

/-- The text of a spelling is the literal. -/
@[simp] theorem pathText_spelling (literal : List Char) :
    pathText (spelling literal) = literal := by
  rw [spelling]
  split
  · next h => rw [List.isEmpty_iff.1 h]; rfl
  · exact pathText_map_char literal

theorem spelling_ne_nil (literal : List Char) : spelling literal ≠ [] := by
  cases literal <;> simp [spelling]

theorem spelling_cons (c : Char) (cs : List Char) :
    spelling (c :: cs) = .char c :: cs.map .char := rfl

theorem spelling_of_ne_nil {literal : List Char} (h : literal ≠ []) :
    spelling literal = literal.map .char := by
  rw [spelling, if_neg (by simpa using h)]

/-- The end of input ends the spelling of the empty literal only. -/
theorem eq_nil_of_spelling_eq {literal : List Char} {path : List Symbol}
    (h : spelling literal = path ++ [.endOfInput]) : literal = [] := by
  cases literal with
  | nil => rfl
  | cons c cs =>
    have hmem : Symbol.endOfInput ∈ (c :: cs).map Symbol.char := by
      simp only [spelling, List.isEmpty_cons, Bool.false_eq_true, if_false] at h
      rw [h]
      simp
    simp at hmem

namespace Origin

/-- The node of an origin. -/
def node : Origin → NodeId
  | root => .root
  | unknown => .unknown
  | identifier => .identifier
  | number => .number
  | float => .float
  | body n _ _ => n

/-- How many bytes are pending at least on the node of an origin. -/
def least : Origin → Nat
  | float => 1
  | body _ m _ => byteLength m.startsWith.toList
  | _ => 0

/-- Whether the origin is the body of a run. -/
def IsBody (o : Origin) : Prop := ∃ n m nested, o = body n m nested

end Origin

namespace Locus

/-- The place of a child. -/
def down : Locus → Symbol → Locus
  | ⟨.number, []⟩, .char '.' => ⟨.float, []⟩
  | p, s => ⟨p.origin, p.path ++ [s]⟩

/-- The place of a descendant. -/
def walk (p : Locus) (path : List Symbol) : Locus := path.foldl down p

/-- How many bytes are pending at least when the walk stands on a node. -/
def least (p : Locus) : Nat := p.origin.least + byteLength (pathText p.path)

/-- Whether nothing but the body of the same run or the same node is reached by a symbol that has
no child: unknown text goes on as unknown text and a run as the run. -/
def IsRest (p : Locus) : Prop := p.path = [] ∧ (p.origin = .unknown ∨ p.origin.IsBody)

theorem down_eq_or (p : Locus) (s : Symbol) :
    p.down s = ⟨p.origin, p.path ++ [s]⟩ ∨
      p = ⟨.number, []⟩ ∧ s = .char '.' ∧ p.down s = ⟨.float, []⟩ := by
  unfold down
  split
  · exact .inr ⟨rfl, rfl, rfl⟩
  · exact .inl rfl

/-- A child is below its parent, unless it is the decimal point. -/
theorem down_of_origin_ne {p : Locus} (h : p.origin ≠ .number) (s : Symbol) :
    p.down s = ⟨p.origin, p.path ++ [s]⟩ := by
  obtain hd | ⟨rfl, -, -⟩ := p.down_eq_or s
  · exact hd
  · exact absurd rfl h

theorem walk_of_origin_ne {p : Locus} (h : p.origin ≠ .number) (path : List Symbol) :
    p.walk path = ⟨p.origin, p.path ++ path⟩ := by
  induction path generalizing p with
  | nil => simp [walk]
  | cons s path ih =>
    rw [walk, List.foldl_cons, p.down_of_origin_ne h s]
    exact (ih (p := ⟨p.origin, p.path ++ [s]⟩) h).trans (by simp)

theorem walk_append (p : Locus) (path rest : List Symbol) :
    p.walk (path ++ rest) = (p.walk path).walk rest := List.foldl_append

@[simp] theorem walk_nil (p : Locus) : p.walk [] = p := rfl

@[simp] theorem walk_cons (p : Locus) (s : Symbol) (path : List Symbol) :
    p.walk (s :: path) = (p.down s).walk path := rfl

/-- Below a place with a path, places follow the path. -/
theorem walk_of_path_ne {p : Locus} (h : p.path ≠ []) (path : List Symbol) :
    p.walk path = ⟨p.origin, p.path ++ path⟩ := by
  induction path generalizing p with
  | nil => simp
  | cons s path ih =>
    obtain hd | ⟨hp, -, -⟩ := p.down_eq_or s
    · rw [walk_cons, hd, ih (by simp)]
      simp
    · simp [hp] at h

/-- A proper descendant is elsewhere. -/
theorem walk_ne (p : Locus) {path : List Symbol} (h : path ≠ []) : p.walk path ≠ p := by
  cases path with
  | nil => exact absurd rfl h
  | cons s path =>
    intro hp
    rw [walk_cons] at hp
    obtain hd | ⟨rfl, -, hd⟩ := p.down_eq_or s
    · rw [hd, walk_of_path_ne (by simp)] at hp
      simpa using congrArg (fun q => q.path.length) hp
    · rw [hd, walk_of_origin_ne (by simp)] at hp
      cases hp

@[simp] theorem least_down (p : Locus) (s : Symbol) :
    (p.down s).least = p.least + byteLength s.text := by
  obtain hd | ⟨rfl, rfl, hd⟩ := p.down_eq_or s
  · simp [hd, least, Nat.add_assoc]
  · rw [hd]
    rfl

theorem down_not_isBody {p : Locus} (h : ¬p.origin.IsBody) (s : Symbol) :
    ¬(p.down s).origin.IsBody := by
  obtain hd | ⟨-, -, hd⟩ := p.down_eq_or s <;> rw [hd]
  · exact h
  · rintro ⟨n, m, nested, ⟨⟩⟩

/-- Only the beginning of whole numbers is where they begin. -/
theorem down_ne_number (p : Locus) (s : Symbol) : p.down s ≠ ⟨.number, []⟩ := by
  obtain hd | ⟨-, -, hd⟩ := p.down_eq_or s <;> simp [hd]

theorem down_ne_root (p : Locus) (s : Symbol) : p.down s ≠ ⟨.root, []⟩ := by
  obtain hd | ⟨-, -, hd⟩ := p.down_eq_or s <;> simp [hd]

theorem walk_ne_number (p : Locus) {path : List Symbol} (h : path ≠ []) :
    p.walk path ≠ ⟨.number, []⟩ := by
  obtain ⟨front, s, rfl⟩ := (List.eq_nil_or_concat path).resolve_left h
  rw [List.concat_eq_append, walk_append]
  exact down_ne_number _ s

theorem walk_not_isBody {p : Locus} (h : ¬p.origin.IsBody) (path : List Symbol) :
    ¬(p.walk path).origin.IsBody := by
  induction path generalizing p with
  | nil => exact h
  | cons s path ih => exact ih (down_not_isBody h s)

/-- Every symbol on the way takes its bytes. -/
theorem least_walk (p : Locus) (path : List Symbol) :
    (p.walk path).least = p.least + byteLength (pathText path) := by
  induction path generalizing p with
  | nil => simp [walk]
  | cons s path ih =>
    rw [walk_cons, ih, least_down, Nat.add_assoc, ← Text.byteLength_append]
    rfl

end Locus

end TrieLexer
