import TrieLexer.Proofs.Completion
import TrieLexer.Proofs.Forests

/-!
# The bodies of runs

A matcher with a terminator gets a body of its own, to which no edge leads. Below it stand the ends
of the run and nothing else: every other literal is spelled from the root. So in the finished
automaton the paths from the body are the spellings of the terminator, of the halt marker and of
the end of input, and a symbol that leaves these paths leads back to the body.

## Main definitions

* `Trie.IsTop` — a node that no node leads to.
* `stamp` — what stands at the end of a path after a literal has been spelled.
* `Lexicon.closings` — the ends of a run.
* `imprint` — what they leave below the body of the run.
* `Draft.Holds` — the body of a run is in place.
* `Draft.RunStages` — the stages in which a run is built.
* `Grammar.openings` — the matchers that have a terminator, each with its opener and its body.
* `StateGraph.Shelves` — what stands below a node of an automaton.

## Main results

* `Draft.holds_buildRun`, `Draft.Holds.mono` — a run gets its body, and nothing else touches it.
* `Grammar.ends_of_mem_openings` — what stands below the body of a run in the end.
-/

namespace TrieLexer

open Text (byteLength)

/-! ### Nodes that nothing leads to -/

namespace Trie

variable {t t' : Trie Site} {b n m : NodeId} {s : Symbol} {out : Symbol → Prop}

/-- A node other than the root that no node leads to. -/
structure IsTop (t : Trie Site) (b : NodeId) : Prop where
  lt : b < t.size
  ne_root : b ≠ .root
  orphan (n : NodeId) (s : Symbol) : t.child? n s ≠ some b

/-- A node that can be reached from another one. -/
def Under {α : Type} (t : Trie α) (b n : NodeId) : Prop := ∃ q, t.follow? b q = some n

theorem under_self {α : Type} (t : Trie α) (b : NodeId) : t.Under b b := ⟨[], rfl⟩

theorem Under.child {α : Type} {t : Trie α} (h : t.Under b n) (hc : t.child? n s = some m) :
    t.Under b m := by
  obtain ⟨q, hq⟩ := h
  refine ⟨q ++ [s], ?_⟩
  rw [follow?_concat, hq]
  exact hc

/-- Nothing has to be spared. -/
theorem Forest.apart_nothing (h : t.Forest) (hpos : NodeId.root < t.size) :
    t.Apart (fun _ => False) fun _ => False :=
  ⟨hpos, id, False.elim, fun {n e} _ _ he => ⟨id, Nat.ne_of_gt (Nat.zero_lt_of_lt
    (h.up ((h.sorted n).find?_of_mem he : t.child? n e.1 = some e.2)).1)⟩⟩

/-- Nothing leads below a top but what stands there. -/
theorem Forest.apart_under (h : t.Forest) (hb : t.IsTop b) :
    t.Apart (t.Under b) fun _ => False where
  pos := Nat.zero_lt_of_lt hb.lt
  root := by
    rintro ⟨q, hq⟩
    exact hb.ne_root (Nat.le_zero.1 (h.le_of_follow? hq))
  lt := by
    rintro n ⟨q, hq⟩
    exact h.lt_size_of_follow? hb.lt hq
  edge {n e} hn _ he := by
    have hc : t.child? n e.1 = some e.2 := (h.sorted n).find?_of_mem he
    refine ⟨?_, Nat.ne_of_gt (Nat.zero_lt_of_lt (h.up hc).1)⟩
    rintro ⟨q, hq⟩
    rcases q.eq_nil_or_concat with rfl | ⟨p, u, rfl⟩
    · cases hq
      exact hb.orphan n e.1 hc
    · rw [List.concat_eq_append, follow?_concat] at hq
      obtain ⟨k, hk, hke⟩ := Option.bind_eq_some_iff.1 hq
      obtain ⟨rfl, -⟩ := h.parent hc hke
      exact hn ⟨p, hk⟩

/-- A top whose paths are spared stays a top. -/
theorem Spares.isTop (hs : t.Spares (t.Under b) (fun _ => False) t') (hb : t.IsTop b) :
    t'.IsTop b := by
  refine ⟨Nat.lt_of_lt_of_le hb.lt hs.size, hb.ne_root, fun n s hc => ?_⟩
  by_cases hn : t.Under b n
  · rw [child?, hs.edges hn] at hc
    exact hb.orphan n s hc
  · exact (hs.apart.child hn (fun _ => id) hc).1 (t.under_self b)

end Trie

namespace Draft

variable {d d' : Draft} {b : NodeId} {out : Symbol → Prop}

/-- What stands below a top is kept with its paths. -/
theorem below_of_spares_under (hs : d.trie.Spares (d.trie.Under b) out d'.trie) (q : List Symbol) :
    d'.below b q = d.below b q := by
  obtain ⟨hfollow, hkept⟩ := hs.follow? Trie.Under.child (d.trie.under_self b) q
  rw [below, below, hfollow]
  cases hq : d.trie.follow? b q with
  | none => rfl
  | some n =>
    exact congrArg (fun site => some (Site.face site))
      (hs.content (Trie.not_free_of_kept (hkept hq)))

theorem run_of_spares (hs : d.trie.Spares (d.trie.Under b) out d'.trie) :
    (d'.site b).behaviour.run = (d.site b).behaviour.run :=
  congrArg (fun site => site.behaviour.run)
    (hs.content (Trie.not_free_of_kept (d.trie.under_self b)))

end Draft

/-! ### Stamps of literals -/

/-- What stands at the end of a path after a literal has been spelled: `last` at the end of the
literal, `way` on new nodes before, and what was there before everywhere else. -/
def stamp (symbols : List Symbol) (way last : Face) (q : List Symbol) (old : Option Face) :
    Option Face :=
  if q = symbols then some last
  else if q ≠ [] ∧ q <+: symbols then some (old.getD way)
  else old

/-- The end of a run. -/
def Face.closed (c : Close) : Face := ⟨.stay, .close c, some (.close c.label)⟩

/-- The ends of runs, one after the other, at the end of a path from a body. -/
def imprint (closings : List (String × Close)) (body : NodeId) (q : List Symbol)
    (old : Option Face) : Option Face :=
  closings.foldl (fun old c =>
    stamp (spelling c.1.toList) { fallback := .reroute body } (.closed c.2) q old) old

/-- The ends of a run: its terminator, the end of input and its halt marker, if it has one. -/
def Lexicon.closings (lexicon : Lexicon) (m : GreedyMatcher Compilation) (terminator : String)
    (escape : Option Char) (body : NodeId) (nested : Option RunId) : List (String × Close) :=
  let close (label : Label) (halted : Bool) (escape : Option Char) (terminator : String) : Close :=
    { label, halted, escape, body, nested
      terminatorLength := byteLength terminator.toList
      openerLength := byteLength m.startsWith.toList }
  (terminator, close m.kind false escape terminator) ::
    ("", close (lexicon.labels.halted m.kind) true none "") ::
    m.haltMarker.toList.map fun marker =>
      (marker, close (lexicon.labels.halted m.kind) true escape marker)

theorem Lexicon.body_of_mem_closings (lexicon : Lexicon) {m : GreedyMatcher Compilation}
    {terminator : String} {escape : Option Char} {body : NodeId} {nested : Option RunId}
    {c : String × Close} (hc : c ∈ lexicon.closings m terminator escape body nested) :
    c.2.body = body := by
  rw [closings, List.mem_cons, List.mem_cons, List.mem_map] at hc
  rcases hc with rfl | rfl | ⟨marker, -, rfl⟩ <;> rfl

/-- What stands below a new node. -/
def vacant (q : List Symbol) : Option Face := if q = [] then some {} else none

namespace Draft

open Assembly (yields_bind yields_pure yields_modify yields_modifyGet yields_pureExcept)

variable {lexicon : Lexicon} {d d₁ d₂ d' : Draft} {b n : NodeId} {q : List Symbol}
  {terminator : String} {close : Close} {closings : List (String × Close)}

/-- The end of a run leaves a stamp, and its body stays a top. -/
theorem stamps_endRun (h : d.trie.Forest) (hb : d.trie.IsTop close.body)
    (hy : (lexicon.endRun terminator close).Yields d ⟨⟩ d') :
    d'.trie.Forest ∧ d'.trie.IsTop close.body ∧ ∀ q, d'.below close.body q =
      stamp (spelling terminator.toList) { fallback := .reroute close.body } (.closed close) q
        (d.below close.body q) := by
  obtain ⟨steps, d₁, hpath, hy⟩ := yields_bind.1 hy
  obtain ⟨⟨⟩, d₂, hre, hy⟩ := yields_bind.1 hy
  obtain ⟨hlays, last, hlast, hnode⟩ := lays_rerouteCreated (p := []) h hb.lt rfl hpath hre
  rw [hlast] at hy
  obtain ⟨ok, d₃, hclaim, hy⟩ := yields_bind.1 hy
  have hlt := hlays.forest.lt_size_of_follow? (Nat.lt_of_lt_of_le hb.lt hlays.size) hnode
  obtain ⟨rfl, hassigned⟩ := alters_assign hlays.forest hlt hnode hclaim nofun
    (f := fun b => { b with fallback := .stay, action := .close close })
    (φ := fun face => { face with fallback := .stay, action := .close close }) fun _ => rfl
  obtain rfl := yields_modify.1 hy
  refine ⟨hassigned.forest hlays.forest, ⟨hassigned.size ▸ Nat.lt_of_lt_of_le hb.lt hlays.size,
    hb.ne_root, fun k s hk => ?_⟩, fun q => ?_⟩
  · rw [hassigned.child?] at hk
    rcases hlays.child hk with hold | hle
    · exact hb.orphan k s hold
    · exact Nat.not_le_of_lt hb.lt hle
  · rw [stamp]
    split
    · next heq =>
      rw [hassigned.on heq, heq, show d₂.below close.body (spelling terminator.toList) = _ from
        hlays.last]
      rfl
    · next hproper =>
      rw [hassigned.off hproper]
      split
      · next hon => exact hlays.way hon.1 hon.2 hproper
      · next hoff =>
        refine hlays.rest ?_
        rintro ⟨r, hr, hfront, rfl⟩
        exact hoff ⟨hr, hfront⟩

/-- The ends of a run leave their imprint. -/
theorem below_forM_endRun (h : d.trie.Forest) (hb : d.trie.IsTop b)
    (hbody : ∀ c ∈ closings, c.2.body = b)
    (hy : (closings.forM fun c => lexicon.endRun c.1 c.2).Yields d ⟨⟩ d') :
    d'.trie.IsTop b ∧ ∀ q, d'.below b q = imprint closings b q (d.below b q) := by
  induction closings generalizing d with
  | nil =>
    obtain ⟨-, rfl⟩ := yields_pure.1 hy
    exact ⟨hb, fun _ => rfl⟩
  | cons c closings ih =>
    obtain ⟨⟨⟩, d₁, hfirst, hy⟩ := yields_bind.1 hy
    rw [List.forall_mem_cons] at hbody
    obtain ⟨rfl, hbody⟩ := hbody
    obtain ⟨hforest, htop, hstamp⟩ := stamps_endRun h hb hfirst
    obtain ⟨htop, hbelow⟩ := ih hforest htop hbody hy
    exact ⟨htop, fun q => by rw [hbelow, hstamp]; rfl⟩

/-! ### A new body -/

section

variable (runs : Array (NestedRun Automaton)) (ws : Array Warning) (nested : Option RunId)

theorem size_bindBody : (d.bindBody runs ws nested).trie.size = d.trie.size + 1 := by
  simp [bindBody]

theorem edges_bindBody (k : NodeId) :
    (d.bindBody runs ws nested).trie.edges k = d.trie.edges k := by
  simp [bindBody]

theorem child?_bindBody (k : NodeId) (s : Symbol) :
    (d.bindBody runs ws nested).trie.child? k s = d.trie.child? k s := by
  rw [Trie.child?, edges_bindBody, Trie.child?]

theorem forest_bindBody (h : d.trie.Forest) : (d.bindBody runs ws nested).trie.Forest where
  sorted n := by
    rw [edges_bindBody]
    exact h.sorted n
  up hc := by
    rw [child?_bindBody] at hc
    rw [size_bindBody]
    exact ⟨(h.up hc).1, Nat.lt_succ_of_lt (h.up hc).2⟩
  parent hc hc' := by
    rw [child?_bindBody] at hc hc'
    exact h.parent hc hc'

theorem isTop_bindBody (h : d.trie.Forest) (hpos : NodeId.root < d.trie.size) :
    (d.bindBody runs ws nested).trie.IsTop d.trie.size := by
  refine ⟨by rw [size_bindBody]; exact Nat.lt_succ_self _, Nat.ne_of_gt hpos, fun n s hc => ?_⟩
  rw [child?_bindBody] at hc
  exact Nat.lt_irrefl _ (h.up hc).2

/-- Nothing stands below a new body. -/
theorem below_bindBody (q : List Symbol) :
    (d.bindBody runs ws nested).below d.trie.size q = vacant q := by
  rw [below, Trie.follow?_congr (child?_bindBody runs ws nested)]
  cases q with
  | nil =>
    rw [show d.trie.follow? d.trie.size [] = some d.trie.size from rfl, Option.map_some,
      site_bindBody, if_pos rfl]
    rfl
  | cons s q =>
    rw [Trie.follow?_cons, Trie.child?, Trie.edges_of_size_le _ _ (Nat.le_refl _)]
    rfl

end

/-! ### The runs of matchers -/

/-- The body of a matcher's run is in place: nothing leads to it, and below it stand the ends of the
run. -/
structure Holds (lexicon : Lexicon) (m : GreedyMatcher Compilation) (terminator : String)
    (escape : Option Char) (nested : Option RunId) (b : NodeId) (d : Draft) : Prop where
  ends : m.terminator = some terminator
  escapes : m.escape = .ok escape
  nests : m.Nests d.runs.toList nested
  top : d.trie.IsTop b
  run : (d.site b).behaviour.run = nested
  below (q : List Symbol) :
    d.below b q = imprint (lexicon.closings m terminator escape b nested) b q (vacant q)

variable {m : GreedyMatcher Compilation} {escape : Option Char} {nested : Option RunId}

/-- Nested runs are kept when more runs come after them. -/
theorem nests_of_prefix {runs runs' : List (NestedRun Automaton)} (h : m.Nests runs nested)
    (hruns : runs <+: runs') : m.Nests runs' nested := by
  obtain ⟨more, rfl⟩ := hruns
  exact nests_append h

/-- What is built from the root does not touch the body of a run. -/
theorem Holds.mono {α : Type} {x : Assembly α} {P : α → Prop} {a : α} (h : d.trie.Forest)
    (hb : Holds lexicon m terminator escape nested b d) (hruns : d.runs.toList <+: d'.runs.toList)
    (hx : ∀ kept, ¬kept .root → x.Spares kept (fun _ => False) P) (hy : x.Yields d a d') :
    Holds lexicon m terminator escape nested b d' := by
  have hapart := h.apart_under hb.top
  have hs := ((hx _ hapart.root).spares hapart hy).1
  exact ⟨hb.ends, hb.escapes, nests_of_prefix hb.nests hruns, hs.isTop hb.top,
    (run_of_spares hs).trans hb.run, fun q => (below_of_spares_under hs q).trans (hb.below q)⟩

/-- A node leads into the body of a run. -/
def leadInto (d : Draft) (n body : NodeId) : Draft :=
  { d.modifyBehaviour n fun b => { b with action := .none, fallback := .reroute body } with
    openers := d.openers ++ [(n, body)] }

theorem trie_leadInto (d : Draft) (n body : NodeId) : (d.leadInto n body).trie =
    (d.modifyBehaviour n fun b => { b with action := .none, fallback := .reroute body }).trie := rfl

theorem size_leadInto (d : Draft) (n body : NodeId) :
    (d.leadInto n body).trie.size = d.trie.size := by
  rw [trie_leadInto, size_modifyBehaviour]

theorem edges_leadInto (d : Draft) (n body k : NodeId) :
    (d.leadInto n body).trie.edges k = d.trie.edges k := by
  rw [trie_leadInto, edges_modifyBehaviour]

/-- The stages in which a greedy run is built: the opener is spelled, the body is allocated, the
opener is claimed and leads into the body, and the ends of the run are spelled below the body. -/
inductive RunStages (lexicon : Lexicon) (m : GreedyMatcher Compilation) (terminator : String)
    (d d' : Draft) : Prop
  | mk {opener : NodeId} {d₁ d₂ : Draft} {escape : Option Char} {nested : Option RunId}
    {more : Array (NestedRun Automaton)} {ws : Array Warning}
    (path : (lexicon.rootPath m.startsWith).Yields d opener d₁)
    (escapes : m.escape = .ok escape)
    (nests : m.Nests (d₁.runs ++ more).toList nested)
    (claim : (Assembly.claim lexicon.conflicts opener m.startsWith (.opener m.kind)).Yields
      (d₁.bindBody (d₁.runs ++ more) ws nested) true d₂)
    (ends : ((lexicon.closings m terminator escape d₁.trie.size nested).forM fun c =>
      lexicon.endRun c.1 c.2).Yields ((d₂.pruneBoundaries opener).leadInto opener d₁.trie.size)
        ⟨⟩ d')

/-- A greedy run is built in stages. -/
theorem runStages_of_yields (ht : m.terminator = some terminator)
    (hy : (lexicon.buildRun m terminator).Yields d ⟨⟩ d') :
    RunStages lexicon m terminator d d' := by
  obtain ⟨opener, d₁, hopener, hy⟩ := yields_bind.1 hy
  obtain ⟨body, d₂, hbody, hy⟩ := yields_bind.1 hy
  obtain ⟨escape, d₃, hescape, hy⟩ := yields_bind.1 hy
  obtain ⟨nested, d₄, hnested, hy⟩ := yields_bind.1 hy
  obtain ⟨⟨⟩, d₅, hrun, hy⟩ := yields_bind.1 hy
  obtain ⟨ok, d₆, hclaim, hy⟩ := yields_bind.1 hy
  cases yields_modifyGet.1 hbody
  obtain ⟨hchar, rfl⟩ := yields_pureExcept.1 hescape
  obtain ⟨more, ws, rfl, hnests, -⟩ := nests_of_yields ht hnested
  obtain rfl := yields_modify.1 hrun
  cases ok with
  | false => cases isWeak_of_yields hclaim
  | true =>
    obtain ⟨⟨⟩, d₇, hprune, hy⟩ := yields_bind.1 hy
    obtain ⟨⟨⟩, d₈, hmod, hy⟩ := yields_bind.1 hy
    obtain ⟨⟨⟩, d₉, hadd, hy⟩ := yields_bind.1 hy
    obtain rfl := yields_modify.1 hprune
    obtain rfl := yields_modify.1 hmod
    obtain rfl := yields_modify.1 hadd
    obtain ⟨⟨⟩, d₁₀, hend, hy⟩ := yields_bind.1 hy
    obtain ⟨⟨⟩, d₁₁, hend', hy⟩ := yields_bind.1 hy
    refine .mk hopener hchar hnests hclaim
      (yields_bind.2 ⟨⟨⟩, d₁₀, hend, yields_bind.2 ⟨⟨⟩, d₁₁, hend', ?_⟩⟩)
    cases hmarker : m.haltMarker with
    | none =>
      rw [hmarker] at hy
      exact hy
    | some marker =>
      rw [hmarker] at hy
      exact yields_bind.2 ⟨⟨⟩, d', hy, yields_pure.2 ⟨rfl, rfl⟩⟩

/-- A matcher with a terminator gets the body of its run, which is remembered with the opener. -/
theorem holds_buildRun (h : d.trie.Forest) (hpos : NodeId.root < d.trie.size)
    (ht : m.terminator = some terminator) (hy : (lexicon.buildRun m terminator).Yields d ⟨⟩ d') :
    d'.trie.Forest ∧ d.trie.size ≤ d'.trie.size ∧ d.runs.toList <+: d'.runs.toList ∧
      ∃ opener body escape nested,
      d'.openers = d.openers ++ [(opener, body)] ∧
      Holds lexicon m terminator escape nested body d' := by
  obtain @⟨opener, d₁, d₆, escape, nested, more, ws, hopener, hchar, hnests, hclaim, hends⟩ :=
    runStages_of_yields ht hy
  obtain ⟨h₁, hlt⟩ := (Lexicon.plants_rootPath hpos _).plants h hopener
  have hne : opener ≠ .root :=
    ((Lexicon.spares_rootPath id fun _ _ => id).spares (h.apart_nothing hpos) hopener).2.1.2
  have hpos₁ := Nat.lt_of_lt_of_le hpos h₁.size
  have h₅ := forest_bindBody (d₁.runs ++ more) ws nested h₁.forest
  have htop := isTop_bindBody (d₁.runs ++ more) ws nested h₁.forest hpos₁
  have hsize := Nat.le_of_lt htop.lt
  have hbelow₅ := below_bindBody (d := d₁) (d₁.runs ++ more) ws nested
  have hrun₅ : ((d₁.bindBody (d₁.runs ++ more) ws nested).site d₁.trie.size).behaviour.run =
      nested := by rw [site_bindBody, if_pos rfl]
  have hopeners₅ : (d₁.bindBody (d₁.runs ++ more) ws nested).openers = d₁.openers := rfl
  have hruns₅ : (d₁.bindBody (d₁.runs ++ more) ws nested).runs = d₁.runs ++ more := rfl
  -- The opener takes its role in the draft that the body has been allocated in.
  generalize d₁.bindBody (d₁.runs ++ more) ws nested = d₅ at *
  have h₆ := ((Assembly.plants_claim _ _).plants h₅ hclaim).1
  have h₇ := plants_pruneBoundaries (n := opener) h₆.forest
  have h₈ : d₅.Plants ((d₆.pruneBoundaries opener).modifyBehaviour opener fun b =>
      { b with action := .none, fallback := .reroute d₁.trie.size }) :=
    h₆.trans (h₇.trans (plants_modifyBehaviour h₇.forest fun _ => rfl))
  have hfree : Trie.Free (d₅.trie.Under d₁.trie.size) opener := by
    refine ⟨?_, hne⟩
    rintro ⟨q, hq⟩
    exact Nat.not_le_of_lt hlt (h₅.le_of_follow? hq)
  have hs₆ := ((Assembly.spares_claim hfree _ _).spares (h₅.apart_under htop) hclaim).1
  have hs₇ := hs₆.trans (spares_pruneBoundaries hs₆.apart hfree)
  have hs₈ : d₅.trie.Spares (d₅.trie.Under d₁.trie.size) (fun _ => False)
      ((d₆.pruneBoundaries opener).leadInto opener d₁.trie.size).trie :=
    hs₇.trans (Trie.spares_modifyContent hs₇.apart hfree fun site => { site with
      behaviour := { site.behaviour with action := .none, fallback := .reroute d₁.trie.size } })
  have hbody : ∀ c ∈ lexicon.closings m terminator escape d₁.trie.size nested,
      c.2.body = d₁.trie.size := fun c hc => lexicon.body_of_mem_closings hc
  have htop₉ := hs₈.isTop htop
  have h₉ : ((d₆.pruneBoundaries opener).leadInto opener d₁.trie.size).trie.Forest := h₈.forest
  obtain ⟨htop', hbelow⟩ := below_forM_endRun h₉ htop₉ hbody hends
  obtain ⟨h', -⟩ := (Assembly.plants_forM fun c hc _ hsize => Lexicon.plants_endRun c.1
    (hbody c hc ▸ Nat.lt_of_lt_of_le htop₉.lt hsize)).plants h₉ hends
  have hruns : d'.runs = d₁.runs ++ more := h'.runs.trans (h₈.runs.trans hruns₅)
  refine ⟨h'.forest, Nat.le_trans h₁.size (Nat.le_trans hsize (Nat.le_trans h₈.size h'.size)), ?_,
    opener, d₁.trie.size, escape, nested, ?_, ⟨ht, hchar, ?_, htop', ?_, fun q => ?_⟩⟩
  · rw [hruns, h₁.runs, Array.toList_append]
    exact List.prefix_append _ _
  · rw [h'.openers]
    exact congrArg (· ++ _) (h₈.openers.trans (hopeners₅.trans h₁.openers))
  · rw [hruns]
    exact hnests
  · rw [h'.run]
    exact (run_of_spares hs₈).trans hrun₅
  · rw [hbelow]
    exact congrArg (imprint _ _ q) ((below_of_spares_under hs₈ q).trans (hbelow₅ q))

/-- Every matcher with a terminator gets the body of its run. -/
theorem holds_buildMatchers (h : d.trie.Forest) (hpos : NodeId.root < d.trie.size)
    {matchers : List (GreedyMatcher Compilation)}
    (hy : (lexicon.buildMatchers matchers).Yields d ⟨⟩ d') :
    d'.trie.Forest ∧ d.runs.toList <+: d'.runs.toList ∧
      ∃ openers, d'.openers = d.openers ++ openers ∧
      List.Forall₂ (fun m o => ∃ terminator escape nested,
        Holds lexicon m terminator escape nested o.2 d')
        (matchers.filter (·.terminator.isSome)) openers := by
  induction matchers generalizing d with
  | nil =>
    obtain ⟨-, rfl⟩ := yields_pure.1 hy
    exact ⟨h, List.prefix_rfl, [], (List.append_nil _).symm, .nil⟩
  | cons m matchers ih =>
    obtain ⟨⟨⟩, d₁, hfirst, hy⟩ := yields_bind.1 hy
    cases ht : m.terminator with
    | none =>
      simp only [ht] at hfirst
      obtain ⟨h₁, -⟩ := (Lexicon.plants_buildKeyword hpos _ _).plants h hfirst
      obtain ⟨h', hruns, openers, hopeners, hholds⟩ :=
        ih h₁.forest (Nat.lt_of_lt_of_le hpos h₁.size) hy
      refine ⟨h', h₁.runs ▸ hruns, openers, h₁.openers ▸ hopeners, ?_⟩
      rw [List.filter_cons_of_neg (by simp [ht])]
      exact hholds
    | some terminator =>
      simp only [ht] at hfirst
      obtain ⟨h₁, hsize, hruns₁, opener, body, escape, nested, hopeners₁, hbody⟩ :=
        holds_buildRun h hpos ht hfirst
      obtain ⟨h', hruns, openers, hopeners, hholds⟩ := ih h₁ (Nat.lt_of_lt_of_le hpos hsize) hy
      refine ⟨h', hruns₁.trans hruns, (opener, body) :: openers, ?_, ?_⟩
      · rw [hopeners, hopeners₁, List.append_assoc]
        rfl
      · rw [List.filter_cons_of_pos (by simp [ht])]
        exact .cons ⟨terminator, escape, nested, hbody.mono h₁ hruns
          (fun _ hroot => Lexicon.spares_buildMatchers hroot fun _ _ _ _ => id) hy⟩ hholds

end Draft

/-! ### The finished automaton -/

/-- What stands below a node of an automaton: the ends of paths from the node, what symbols without
a child do there, and what landing does. -/
structure StateGraph.Shelves (g : StateGraph) (b : NodeId) (faces : List Symbol → Option Face) :
    Prop where
  there {q : List Symbol} {face : Face} (h : faces q = some face) : ∃ n,
    g.trie.follow? b q = some n ∧ (g.behaviour n).fallback = face.fallback ∧
      (g.behaviour n).action = face.action
  absent {q : List Symbol} (h : faces q = none) : g.trie.follow? b q = none

/-- What is left of a spared top in a finished automaton. -/
theorem StateGraph.Shows.shelves {g : StateGraph} {d : Draft} {b : NodeId} {out : Symbol → Prop}
    (h : g.Shows (d.trie.Under b) out d) : g.Shelves b (d.below b) := by
  have hfollow {n : NodeId} (hn : d.trie.Under b n) (q : List Symbol) :
      g.trie.follow? n q = d.trie.follow? n q := by
    induction q generalizing n with
    | nil => rfl
    | cons s q ih =>
      rw [Trie.follow?_cons, Trie.follow?_cons, h.child? (.inl hn)]
      cases hc : d.trie.child? n s with
      | none => rfl
      | some m => exact ih (hn.child hc)
  refine ⟨fun {q face} hface => ?_, fun {q} hface => ?_⟩
  · rw [Draft.below, Option.map_eq_some_iff] at hface
    obtain ⟨n, hn, rfl⟩ := hface
    refine ⟨n, (hfollow (d.trie.under_self b) q).trans hn, ?_, ?_⟩
    · rw [h.behaviour ⟨q, hn⟩]
      rfl
    · rw [h.behaviour ⟨q, hn⟩]
      rfl
  · rw [hfollow (d.trie.under_self b)]
    exact Draft.below_eq_none.1 hface

/-- The body of a matcher's run in an automaton: below it stand the ends of the run. -/
structure Lexicon.Ends (lexicon : Lexicon) (m : GreedyMatcher Compilation) (terminator : String)
    (escape : Option Char) (nested : Option RunId) (b : NodeId) (a : Automaton) : Prop where
  ends : m.terminator = some terminator
  escapes : m.escape = .ok escape
  nests : m.Nests a.runs nested
  run : (a.behaviour b).run = nested
  shelves : a.Shelves b fun q =>
    imprint (lexicon.closings m terminator escape b nested) b q (vacant q)

/-- A run has no nested run if its interior has no grammar. -/
theorem Lexicon.Ends.interior {lexicon : Lexicon} {m : GreedyMatcher Compilation}
    {terminator : String} {escape : Option Char} {nested : Option RunId} {b : NodeId}
    {a : Automaton} (h : lexicon.Ends m terminator escape nested b a) (hsub : m.subGrammar = none) :
    nested = none := by
  cases nested with
  | none => rfl
  | some id =>
    obtain ⟨c, -, -, hc, -⟩ := h.nests
    cases hsub.symm.trans hc

namespace Lexicon

variable {lexicon : Lexicon} {matchers : List (GreedyMatcher Compilation)} {a : Automaton}

/-- What is built after the matchers leaves the body of a run as it is. -/
theorem ends_of_holds {d₃ d₄ d₅ d : Draft} {pointed : Prop} {marked : String → Prop}
    {loose : NodeId → Prop} {place : NodeId → Locus} {m : GreedyMatcher Compilation}
    {terminator : String} {escape : Option Char} {nested : Option RunId} {o : NodeId × NodeId}
    (h : d₃.trie.Forest)
    (hchart : Draft.Charted lexicon matchers pointed marked loose d₃ place)
    (hholds : Draft.Holds lexicon m terminator escape nested o.2 d₃) (ho : o ∈ d₃.openers)
    (hdelimiters : lexicon.buildDelimiters.Yields d₃ ⟨⟩ d₄)
    (hpunctuation : lexicon.buildPunctuation.Yields d₄ ⟨⟩ d₅) (hpoint : d₅.Pointed lexicon d)
    (hruns : (lexicon.finish d).runs = d₃.runs.toList) :
    lexicon.Ends m terminator escape nested o.2 (lexicon.finish d) := by
  obtain ⟨m', nested', hb, -⟩ := hchart.opener ho
  have hapart : d₃.Apart (d₃.trie.Under o.2) fun _ => False := by
    refine ⟨h.apart_under hholds.top, fun o' ho' => ?_⟩
    obtain ⟨m'', nested'', -, hn⟩ := hchart.opener ho'
    refine ⟨?_, ?_⟩
    · rintro ⟨q, hq⟩
      have hplace := (hchart.follow? hq hholds.top.lt).2
      rw [hn, hb, Locus.walk_of_origin_ne (by simp)] at hplace
      cases congrArg Locus.origin hplace
    · rintro hroot
      rw [hroot, hchart.place_root] at hn
      exact spelling_ne_nil _ (congrArg Locus.path hn).symm
  obtain ⟨h₄, hs₄, -⟩ := (spares_buildDelimiters hapart.trie.root fun _ _ _ _ => id).keeps hapart
    hdelimiters
  obtain ⟨h₅, hs₅, -⟩ := (spares_buildPunctuation hapart.trie.root fun _ _ _ _ => id).keeps h₄
    hpunctuation
  have hshows := (shows_finish h₅ id hpoint).mono (hs₄.trans hs₅)
  refine ⟨hholds.ends, hholds.escapes, hruns ▸ hholds.nests, ?_, ?_⟩
  · rw [hshows.behaviour (d₃.trie.under_self _), hholds.run]
  · rw [← funext hholds.below]
    exact hshows.shelves

/-- The body of every run stands in the finished automaton as it was built. -/
theorem exists_ends_assemble (h : (lexicon.assemble matchers).result = .ok a) :
    ∃ d place, (lexicon.build matchers).Yields .start ⟨⟩ d ∧
      Charted lexicon matchers a place ∧
      (∀ o ∈ d.openers, ∃ m nested path, place o.2 = ⟨.body o.2 m nested, []⟩ ∧
        place o.1 = ⟨.root, path⟩) ∧
      List.Forall₂ (fun m o => ∃ terminator escape nested,
        lexicon.Ends m terminator escape nested o.2 a)
        (matchers.filter (·.terminator.isSome)) d.openers := by
  obtain ⟨d, hy, rfl⟩ := yields_assemble h
  obtain @⟨d₁, d₂, d₃, d₄, d₅, place₁, place₂, place₃, place₄, place₅, hcategories, -, hkeywords, -,
    hruns, h₃, hdelimiters, -, hpunctuation, h₅, hpoint⟩ := stages_build hy
  obtain ⟨hp₁, -⟩ := (plants_buildCategories (by decide)).plants Draft.forest_start hcategories
  have hpos₁ := Nat.lt_of_lt_of_le (show NodeId.root < Draft.start.trie.size by decide) hp₁.size
  obtain ⟨hp₂, -⟩ := (plants_buildKeywords hpos₁).plants hp₁.forest hkeywords
  have hpos₂ := Nat.lt_of_lt_of_le hpos₁ hp₂.size
  obtain ⟨hf₃, -, openers, hopeners₃, hholds⟩ := Draft.holds_buildMatchers hp₂.forest hpos₂ hruns
  obtain ⟨hp₄, -⟩ := (plants_buildDelimiters h₃.root_lt_size).plants hf₃ hdelimiters
  obtain ⟨hp₅, -⟩ := (plants_buildPunctuation
    (Nat.lt_of_lt_of_le h₃.root_lt_size hp₄.size)).plants hp₄.forest hpunctuation
  have hopeners : d.openers = d₃.openers :=
    hpoint.openers.trans (hp₅.openers.trans hp₄.openers)
  have hruns₃ : (lexicon.finish d).runs = d₃.runs.toList := by
    rw [(h₅.finishes hpoint).runs, hp₅.runs, hp₄.runs]
  have hstart : d₃.openers = openers := by
    rw [hopeners₃, hp₂.openers, hp₁.openers]
    rfl
  refine ⟨d, place₅, hy, (h₅.finishes hpoint).charted h₅, fun o ho => ?_, ?_⟩
  · rw [hpoint.openers] at ho
    obtain ⟨m, nested, hb, hn⟩ := h₅.opener ho
    exact ⟨m, nested, _, hb, hn⟩
  · rw [hopeners, hstart]
    refine List.forall₂_iff_zip.2 ⟨hholds.length_eq, fun {m o} hmem => ?_⟩
    obtain ⟨terminator, escape, nested, hbody⟩ := (List.forall₂_iff_zip.1 hholds).2 hmem
    exact ⟨terminator, escape, nested, ends_of_holds hf₃ h₃ hbody
      (hstart ▸ (List.of_mem_zip hmem).2) hdelimiters hpunctuation hpoint hruns₃⟩

end Lexicon

/-- The matchers that have a terminator, each with its opener and with the body of its run. -/
def Grammar.openings (g : Grammar) : List (GreedyMatcher Grammar × NodeId × NodeId) :=
  (g.greedyMatchers.filter (·.terminator.isSome)).zip
    ((g.toLexicon.build (compileMatchers g.greedyMatchers)).run.run .start).2.openers

theorem terminator_compileMatcher (m : GreedyMatcher Grammar) :
    (compileMatcher m).terminator = m.terminator := by
  obtain ⟨kind, startsWith, endsWith, haltsWith, escapesWith, interior⟩ := m
  rw [compileMatcher]
  rfl

/-- What stands below a body is at its path from there. -/
theorem Charted.place_of_follow? {lexicon : Lexicon} {matchers : List (GreedyMatcher Compilation)}
    {a : Automaton} {place : NodeId → Locus} (h : Charted lexicon matchers a place) {b n : NodeId}
    {m : GreedyMatcher Compilation} {nested : Option RunId} {q : List Symbol}
    (hb : place b = ⟨.body b m nested, []⟩) (hq : a.trie.follow? b q = some n) :
    place n = ⟨.body b m nested, q⟩ := by
  induction q using List.reverseRecOn generalizing n with
  | nil =>
    cases hq
    exact hb
  | append_singleton q s ih =>
    rw [Trie.follow?_concat] at hq
    obtain ⟨k, hk, hkn⟩ := Option.bind_eq_some_iff.1 hq
    have hp := ih hk
    rcases h.child hkn with hd | ⟨hroot, -, -⟩
    · rw [hd, hp, Locus.down_of_origin_ne (by simp)]
    · cases hp.symm.trans hroot

/-- The opener of a matcher is at the end of a path from the root, and below the body of its run
stand the ends of the run. -/
theorem Grammar.ends_of_mem_openings {g : Grammar} {a : Automaton}
    (h : g.compile.result = .ok a) : ∃ place,
    Charted g.toLexicon (compileMatchers g.greedyMatchers) a place ∧
    ∀ {m : GreedyMatcher Grammar} {n b : NodeId}, (m, n, b) ∈ g.openings →
      (∃ path, place n = ⟨.root, path⟩) ∧
      (∃ m' nested, place b = ⟨.body b m' nested, []⟩) ∧
      ∃ terminator escape nested,
        g.toLexicon.Ends (compileMatcher m) terminator escape nested b a := by
  obtain ⟨d, place, hy, hchart, hplace, hends⟩ :=
    Lexicon.exists_ends_assemble (assemble_of_compile h)
  refine ⟨place, hchart, fun {m n b} hm => ?_⟩
  have hd : ((g.toLexicon.build (compileMatchers g.greedyMatchers)).run.run .start).2 = d :=
    congrArg Prod.snd hy
  rw [openings, hd] at hm
  have hcompiled : (compileMatcher m, n, b) ∈
      ((compileMatchers g.greedyMatchers).filter (·.terminator.isSome)).zip d.openers := by
    have hfilter : (compileMatchers g.greedyMatchers).filter (·.terminator.isSome) =
        (g.greedyMatchers.filter (·.terminator.isSome)).map compileMatcher := by
      rw [compileMatchers_eq, List.filter_map]
      congr 1
      refine List.filter_congr fun m _ => ?_
      rw [Function.comp_apply, terminator_compileMatcher]
    rw [hfilter, List.zip_map_left]
    exact List.mem_map_of_mem hm
  obtain ⟨m', nested, path, hb, hn⟩ := hplace (n, b) (List.of_mem_zip hm).2
  exact ⟨⟨path, hn⟩, ⟨m', nested, hb⟩, (List.forall₂_iff_zip.1 hends).2 hcompiled⟩

end TrieLexer
