import TrieLexer.Proofs.Naming

/-!
# Where lexemes come from

Text is given out by what a node does: a punctuation literal by a release, the text before a
terminator and a delimiter by landing, and a run by its end. So the label of every lexeme is named
by a node, and with it by the grammar.

## Main definitions

* `StateGraph.Gives` — a node gives a lexeme out.

## Main results

* `Reading.advance_gives` — a symbol gives out what the nodes do.
* `Automaton.lexemes_gives` — so does a whole input.
* `StateGraph.Gives.exists_group`, `Titled.ends_of_close` — the labels of what is given out are
  those of the grammar.
-/

namespace TrieLexer

/-- A node gives a lexeme out. The text before a terminator is cut off where the walk has landed. -/
inductive StateGraph.Gives (g : StateGraph) (landed : Cursor) : Lexeme → Prop
  | release {n : NodeId} {label : Label} {text : List Char}
      (h : (g.behaviour n).fallback = .release label) : Gives g landed (.plain text (some label))
  | front {label : Label} {length : Nat} {before terminator : List Char}
      (h : (g.behaviour landed.node).action = .boundary label length)
      (hcut : cutBack length landed.pending = .ok (before, terminator)) :
      Gives g landed (.plain before (some label))
  | literal {n : NodeId} {label : Option Label} {text : List Char}
      (h : (g.behaviour n).action = .literal label) :
      Gives g landed (.plain text (label.or g.unnamed))
  | whole {n : NodeId} {c : Close} {text : List Char} (h : (g.behaviour n).action = .close c)
      (hnested : c.nested = none) : Gives g landed (.whole text c)
  | nested {n : NodeId} {c : Close} {id : RunId} {opener interior terminator : List Char}
      {tokens : List Token} (h : (g.behaviour n).action = .close c) (hnested : c.nested = some id) :
      Gives g landed (.nested opener interior terminator c tokens)

/-! ### Symbols -/

namespace Reading

variable {a : Automaton} {inner : InnerScan} {r r' : Reading} {ls : List Lexeme}

theorem close_gives {n : NodeId} {c : Close} (hc : (a.behaviour n).action = .close c)
    (h : r.close a inner c = .ok (r', ls)) (landed : Cursor) : ∀ l ∈ ls, a.Gives landed l := by
  rcases close_cases h with ⟨-, -, rfl⟩ | ⟨-, hnone, -, rfl⟩ | ⟨-, id, _, _, hid, -, hgive⟩
  · exact List.forall_mem_nil _
  · exact List.forall_mem_singleton.2 (.whole hc hnone)
  · obtain ⟨_, _, _, _, _, -, -, -, -, rfl⟩ := exists_of_giveOut hgive
    exact List.forall_mem_singleton.2 (.nested hc hid)

theorem settle_gives (h : r.settle a inner = .ok (r', ls)) (landed : Cursor) :
    ∀ l ∈ ls, a.Gives landed l := by
  rw [settle] at h
  split at h
  · cases h
    exact List.forall_mem_nil _
  · cases h
    exact List.forall_mem_nil _
  · next hc =>
    cases h
    exact List.forall_mem_singleton.2 (.literal hc)
  · next hc => exact close_gives hc h landed

theorem act_gives (h : r.act a inner = .ok (r', ls)) : ∀ l ∈ ls, a.Gives r.toCursor l := by
  rw [act] at h
  split at h
  · next hb =>
    obtain ⟨⟨before, terminator⟩, hcut, h⟩ := bind_eq_ok.1 h
    obtain ⟨⟨c, released⟩, hretake, h⟩ := bind_eq_ok.1 h
    obtain ⟨⟨r₁, out⟩, hsettle, h⟩ := bind_eq_ok.1 h
    cases h
    exact List.forall_mem_cons.2 ⟨.front hb hcut, List.forall_mem_append.2
      ⟨StateGraph.forall_of_retake (fun _ _ _ hn => .release hn) hretake, settle_gives hsettle _⟩⟩
  · exact settle_gives h _

/-- A symbol gives out what the nodes do, once the walk has moved along it. -/
theorem advance_gives {s : Symbol} (h : r.advance a inner s = .ok (r', ls)) :
    ∃ landed released, a.move r.toCursor s = .ok (landed, released) ∧
      ∀ l ∈ ls, a.Gives landed l := by
  obtain ⟨⟨c, released⟩, hm, h⟩ := bind_eq_ok.1 h
  obtain ⟨r₁, he, h⟩ := bind_eq_ok.1 h
  obtain ⟨⟨r₂, out⟩, ha, h⟩ := bind_eq_ok.1 h
  obtain ⟨r₃, -, h⟩ := bind_eq_ok.1 h
  cases h
  have hout := act_gives ha
  rw [enter_toCursor he] at hout
  exact ⟨c, released, hm, List.forall_mem_append.2
    ⟨StateGraph.forall_of_move (fun _ _ _ hn => .release hn) hm, hout⟩⟩

theorem read_gives {text : List Char} (h : r.read a inner text = .ok (r', ls)) :
    ∀ l ∈ ls, ∃ landed, a.Gives landed l := by
  induction text generalizing r ls with
  | nil =>
    cases h
    exact List.forall_mem_nil _
  | cons c text ih =>
    obtain ⟨⟨r₁, out⟩, ha, h⟩ := bind_eq_ok.1 h
    obtain ⟨⟨r₂, outs⟩, hread, h⟩ := bind_eq_ok.1 h
    cases h
    obtain ⟨landed, -, -, hout⟩ := advance_gives ha
    exact List.forall_mem_append.2 ⟨fun l hl => ⟨landed, hout l hl⟩, ih hread⟩

end Reading

/-- A whole input gives out what the nodes do, and passes over what is left. -/
theorem Automaton.lexemes_gives {a : Automaton} {x : String} {ls : List Lexeme}
    (h : a.lexemes x = .ok ls) :
    ∀ l ∈ ls, (∃ landed, a.Gives landed l) ∨ ∃ text, l = .plain text none := by
  obtain ⟨r₁, ls₁, r₂, ls₂, hread, ha, rfl⟩ := exists_of_lexemes h
  obtain ⟨landed, -, -, hout⟩ := Reading.advance_gives ha
  exact List.forall_mem_append.2 ⟨fun l hl => .inl (Reading.read_gives hread l hl),
    List.forall_mem_append.2 ⟨fun l hl => .inl ⟨landed, hout l hl⟩,
      List.forall_mem_singleton.2 (.inr ⟨_, rfl⟩)⟩⟩

/-! ### Labels -/

/-- Open-ended text stands under the label of a category or of a word. -/
theorem Locus.Bears.exists_group {g : Grammar} {p : Locus} {label : Label}
    (h : p.Bears g.toLexicon (compileMatchers g.greedyMatchers) label) :
    label ∈ g.labelsOf .category ∨ label ∈ g.labelsOf .keyword := by
  cases h with
  | word h => exact .inr h.of_compileMatchers.mem_labelsOf
  | _ => exact .inl (by simp [Grammar.labelsOf, Labels.categories])

section

variable {g : Grammar} {a : Automaton} {place : NodeId → Locus} {n : NodeId}
  (ht : Titled g.toLexicon (compileMatchers g.greedyMatchers) a.behaviour place)

include ht

theorem Titled.punctuation_of_release {label : Label}
    (h : (a.behaviour n).fallback = .release label) : label ∈ g.labelsOf .punctuation := by
  obtain ⟨t, hmark, -⟩ := ht.fallback n label h
  exact hmark.mem_labelsOf

theorem Titled.delimiter_of_literal (hunnamed : a.unnamed = g.unnamedLabel) {label : Option Label}
    {kind : Label} (h : (a.behaviour n).action = .literal label)
    (hkind : label.or a.unnamed = some kind) : kind ∈ g.labelsOf .delimiter := by
  have htitle := ht.action n
  rw [h] at htitle
  rw [hunnamed] at hkind
  cases htitle with
  | literal hdelimits => exact hdelimits.mem_labelsOf hkind

theorem Titled.bears_of_boundary {label : Label} {length : Nat}
    (h : (a.behaviour n).action = .boundary label length) :
    label ∈ g.labelsOf .category ∨ label ∈ g.labelsOf .keyword := by
  have htitle := ht.action n
  rw [h] at htitle
  cases htitle with
  | boundary hq => exact hq.exists_group

/-- A run ends by an end of its matcher, which has a terminator. -/
theorem Titled.ends_of_close
    (hchart : Charted g.toLexicon (compileMatchers g.greedyMatchers) a place)
    {c : Close} (hc : (a.behaviour n).action = .close c) :
    c.halted = false ∧ c.label ∈ g.labelsOf .run ∨
      c.halted = true ∧ ∃ m ∈ g.greedyMatchers, c.label = g.labels.halted m.kind ∧
        c.label ∈ g.labelsOf .halted := by
  obtain ⟨b, m, nested, t, hp, hends⟩ := hchart.close_ends hc
  have hterminated : m.terminator ≠ none := by
    have htitle := ht.action n
    rw [hc] at htitle
    cases htitle with
    | close hterminated hp' =>
      cases hp.symm.trans hp'
      exact hterminated
  obtain ⟨x, hx, hkind, -, hterminator, -⟩ := exists_of_mem_compileMatchers (hchart.body hp).2.2.1
  rw [hterminator] at hterminated
  have hmem : x ∈ g.greedyMatchers.filter (·.terminator.isSome) :=
    List.mem_filter.2 ⟨hx, Option.isSome_iff_ne_none.2 hterminated⟩
  have hhalted (hlabel : c.label = g.labels.halted m.kind) :
      ∃ m ∈ g.greedyMatchers, c.label = g.labels.halted m.kind ∧ c.label ∈ g.labelsOf .halted :=
    ⟨x, hx, hkind ▸ hlabel, List.mem_map.2 ⟨x, hmem, (hkind ▸ hlabel).symm⟩⟩
  rcases hends.way with ⟨-, hlabel, hclose, -⟩ | ⟨-, hlabel, hclose, -⟩ | ⟨-, hlabel, hclose, -⟩
  · exact .inl ⟨hclose, List.mem_map.2 ⟨x, hmem, (hkind ▸ hlabel).symm⟩⟩
  · exact .inr ⟨hclose, hhalted hlabel⟩
  · exact .inr ⟨hclose, hhalted hlabel⟩

/-- What is no run goes out under a label that the grammar names for something else than runs. -/
theorem StateGraph.Gives.exists_group {landed : Cursor} {text : List Char} {kind : Label}
    (hunnamed : a.unnamed = g.unnamedLabel) {label : Option Label} (hkind : label = some kind)
    (h : a.Gives landed (.plain text label)) :
    ∃ group, group ≠ .run ∧ group ≠ .halted ∧ kind ∈ g.labelsOf group := by
  cases h with
  | release h =>
    cases hkind
    exact ⟨.punctuation, nofun, nofun, ht.punctuation_of_release h⟩
  | front h =>
    cases hkind
    rcases ht.bears_of_boundary h with hgroup | hgroup
    · exact ⟨.category, nofun, nofun, hgroup⟩
    · exact ⟨.keyword, nofun, nofun, hgroup⟩
  | literal h => exact ⟨.delimiter, nofun, nofun, ht.delimiter_of_literal hunnamed h hkind⟩

end

end TrieLexer
