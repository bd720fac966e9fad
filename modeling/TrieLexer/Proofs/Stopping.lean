import TrieLexer.Proofs.Resumption
import TrieLexer.Proofs.Signposts

/-!
# Open-ended text stops at terminators

A terminator that begins inside another one may be missed, because a beginning of a literal that is
given up is forgotten but for its last symbol. It is not missed if no literal hides another one:
where a delimiter or a punctuation literal begins inside a literal, the text up to there is a
literal as well, and acts. Then, whatever beginning of a terminator ends the pending text, the walk
stands on the way to that terminator, so open-ended text ends at the first terminator in it.

## Main definitions

* `Lexicon.Begins` — a delimiter or punctuation literal begins with a character.
* `Lexicon.Unhidden` — no literal hides another one.
* `Lexicon.Unbroken` — no delimiter or punctuation literal begins behind the first character.
* `Cursor.Alert` — the walk is on the way to whatever the pending text may end with.
* `Cursor.Waits` — where the walk stands between two characters.
* `Lexeme.Stopped` — a lexeme is unbroken, or its label says what else it is.

## Main results

* `Signposted.waits_move` — a character leaves the walk on the way to every terminator.
* `Reading.Waiting.advance` — a symbol only gives out lexemes that stop at terminators.
* `Grammar.stopping` — unknown text stops at terminators.
-/

namespace TrieLexer

/-! ### Literals -/

namespace Lexicon

variable {γ : Type} {lexicon : Lexicon} {matchers : List (GreedyMatcher γ)} {t : String}
  {x y : List Char} {c : Char}

/-- A delimiter or punctuation literal begins with this character. -/
def Begins (lexicon : Lexicon) (c : Char) : Prop :=
  ∃ t ∈ literalsOf lexicon.delimiters ++ literalsOf lexicon.punctuation, t.toList.head? = some c

/-- Where a delimiter or punctuation literal begins inside a delimiter or punctuation literal, the
text up to there is such a literal as well. Inside an opener it may also be an opener. -/
structure Unhidden (lexicon : Lexicon) (matchers : List (GreedyMatcher γ)) : Prop where
  marks : ∀ t ∈ literalsOf lexicon.delimiters ++ literalsOf lexicon.punctuation,
    ∀ x, x <+: t.toList → (∃ c ∈ x.tail, lexicon.Begins c) →
    String.ofList x ∈ literalsOf lexicon.delimiters ++ literalsOf lexicon.punctuation
  openers : ∀ m ∈ matchers, m.terminator ≠ none → ∀ x, x <+: m.startsWith.toList →
    (∃ c ∈ x.tail, lexicon.Begins c) →
    String.ofList x ∈ literalsOf lexicon.delimiters ++ literalsOf lexicon.punctuation ∨
      ∃ m' ∈ matchers, m'.terminator ≠ none ∧ m'.startsWith = String.ofList x

/-- No delimiter or punctuation literal begins behind the first character of a text. -/
def Unbroken (lexicon : Lexicon) (x : List Char) : Prop :=
  ∀ t ∈ literalsOf lexicon.delimiters ++ literalsOf lexicon.punctuation, ∀ front back,
    x = front ++ t.toList ++ back → front = []

theorem Unbroken.of_prefix (h : lexicon.Unbroken y) (hx : x <+: y) : lexicon.Unbroken x := by
  obtain ⟨rest, rfl⟩ := hx
  rintro t ht front back rfl
  exact h t ht front (back ++ rest) (List.append_assoc ..)

theorem begins_iff : lexicon.Begins c ↔ ((literalsOf lexicon.delimiters ++
    literalsOf lexicon.punctuation).any fun t => t.toList.head? == some c) = true := by
  simp only [Begins, List.any_eq_true, beq_iff_eq]

instance : DecidablePred lexicon.Begins := fun _ => decidable_of_iff _ begins_iff.symm

theorem unhidden_iff : lexicon.Unhidden matchers ↔
    (∀ t ∈ literalsOf lexicon.delimiters ++ literalsOf lexicon.punctuation, ∀ x ∈ t.toList.inits,
      (x.tail.any fun c => decide (lexicon.Begins c)) = true →
      String.ofList x ∈ literalsOf lexicon.delimiters ++ literalsOf lexicon.punctuation) ∧
    ∀ m ∈ matchers, m.terminator ≠ none → ∀ x ∈ m.startsWith.toList.inits,
      (x.tail.any fun c => decide (lexicon.Begins c)) = true →
      String.ofList x ∈ literalsOf lexicon.delimiters ++ literalsOf lexicon.punctuation ∨
        ∃ m' ∈ matchers, m'.terminator ≠ none ∧ m'.startsWith = String.ofList x := by
  simp only [List.any_eq_true, decide_eq_true_iff, List.mem_inits]
  exact ⟨fun h => ⟨h.marks, h.openers⟩, fun h => ⟨h.1, h.2⟩⟩

instance : Decidable (lexicon.Unhidden matchers) := decidable_of_iff _ unhidden_iff.symm

/-! ### What follows from the conditions -/

theorem Proper.mark {matchers : List (GreedyMatcher Compilation)} (h : lexicon.Proper matchers)
    (ht : t ∈ literalsOf lexicon.delimiters ++ literalsOf lexicon.punctuation) : t.toList ≠ [] := by
  refine mt String.toList_eq_nil_iff.1 ?_
  rcases List.mem_append.1 ht with ht | ht
  · exact h.delimiter ht
  · exact h.punctuation ht

theorem signs_of_mem (ht : t ∈ literalsOf lexicon.delimiters ++ literalsOf lexicon.punctuation) :
    lexicon.Signs matchers t := by
  rcases List.mem_append.1 ht with ht | ht
  · obtain ⟨definition, hd, hl⟩ := List.mem_flatMap.1 ht
    exact .delimiter ⟨definition, hd, rfl, hl⟩
  · obtain ⟨definition, hd, hl⟩ := List.mem_flatMap.1 ht
    exact .punctuation ⟨definition, hd, rfl, hl⟩

theorem Proper.sign {matchers : List (GreedyMatcher Compilation)} (h : lexicon.Proper matchers)
    (ht : lexicon.Signs matchers t) : t.toList ≠ [] := by
  refine mt String.toList_eq_nil_iff.1 ?_
  cases ht with
  | delimiter ht => exact h.delimiter ht.mem_literalsOf
  | punctuation ht => exact h.punctuation ht.mem_literalsOf
  | opener hm => exact h.opener hm

/-- Where a terminator begins inside a literal that is no word, the text up to there is such a
literal as well. -/
theorem Unhidden.signs (h : lexicon.Unhidden matchers) (ht : lexicon.Signs matchers t)
    (hx : x <+: t.toList) (hc : ∃ c ∈ x.tail, lexicon.Begins c) :
    lexicon.Signs matchers (String.ofList x) := by
  cases ht with
  | delimiter ht =>
    exact signs_of_mem (h.marks t (List.mem_append_left _ ht.mem_literalsOf) x hx hc)
  | punctuation ht =>
    exact signs_of_mem (h.marks t (List.mem_append_right _ ht.mem_literalsOf) x hx hc)
  | opener hm ht =>
    rcases h.openers _ hm ht x hx hc with hmark | ⟨m', hm', ht', heq⟩
    · exact signs_of_mem hmark
    · exact heq ▸ .opener hm' ht'

/-- The first character of a terminator sets it off. -/
theorem IsPlain.begins (h : lexicon.IsPlain matchers) (hc : lexicon.Begins c) :
    c ≠ '.' ∧ lexicon.identifierStart.contains c = false ∧
      lexicon.identifierContinue.contains c = false := by
  obtain ⟨t, ht, hhead⟩ := hc
  exact h.marks t ht c hhead

/-- A terminator inside a text begins there. -/
theorem exists_begins_of_append {front back : List Char}
    (ht : t ∈ literalsOf lexicon.delimiters ++ literalsOf lexicon.punctuation) (hy : y ≠ [])
    (hyt : y <+: t.toList) (hfront : front ≠ []) :
    ∃ c ∈ (front ++ y ++ back).tail, lexicon.Begins c := by
  obtain ⟨d, front, rfl⟩ := List.exists_cons_of_ne_nil hfront
  obtain ⟨c, y, rfl⟩ := List.exists_cons_of_ne_nil hy
  obtain ⟨rest, hrest⟩ := hyt
  exact ⟨c, by simp, t, ht, by rw [← hrest]; rfl⟩

/-- Nothing begins behind the only character. -/
theorem unbroken_of_length_le {matchers : List (GreedyMatcher Compilation)}
    (h : lexicon.Proper matchers) (hx : x.length ≤ 1) : lexicon.Unbroken x := by
  rintro t ht front back rfl
  have hne := List.length_pos_iff.2 (h.mark ht)
  rw [List.length_append, List.length_append] at hx
  exact List.eq_nil_of_length_eq_zero (by omega)

end Lexicon

/-! ### Nodes -/

/-- The walk is on the way to whatever the pending text may end with. -/
structure Cursor.Alert (lexicon : Lexicon) (a : Automaton) (c : Cursor) : Prop where
  unbroken : lexicon.Unbroken c.pending
  follows {t : String} {front y : List Char}
    (ht : t ∈ literalsOf lexicon.delimiters ++ literalsOf lexicon.punctuation) (hy : y ≠ [])
    (hyt : y <+: t.toList) (hpending : c.pending = front ++ y) (hfront : front ≠ []) :
    ∃ j, a.Stops lexicon j ∧ a.trie.follow? j (y.map .char) = some c.node

/-- Where the walk stands between two characters: in a run, at the end of a literal that is no word,
or on the way to whatever the pending text may end with. -/
inductive Cursor.Waits (lexicon : Lexicon) (matchers : List (GreedyMatcher Compilation))
    (a : Automaton) (place : NodeId → Locus) (c : Cursor) : Prop
  | body (h : (place c.node).origin.IsBody)
  | sign {t : String} (ht : lexicon.Signs matchers t)
      (hp : place c.node = ⟨.root, spelling t.toList⟩)
  | alert (h : c.Alert lexicon a)

/-- Open-ended text stands above this place or at it. -/
def Locus.IsOpen (lexicon : Lexicon) (p : Locus) : Prop := p.IsHome lexicon ∨ p.IsEnd lexicon

section

variable {lexicon : Lexicon} {matchers : List (GreedyMatcher Compilation)} {a : Automaton}
  {place : NodeId → Locus} {n n' j : NodeId} {p : Locus} {c c' : Cursor} {t : String}
  {x y : List Char} {d : Char} {ls : List Lexeme}

theorem Locus.IsOpen.isWordly (h : p.IsOpen lexicon) : p.IsWordly lexicon :=
  h.elim (·.isWordly) (·.isWordly)

theorem Locus.IsOpen.not_isBody (h : p.IsOpen lexicon) : ¬p.origin.IsBody := by
  rcases h with h | ⟨q, t, path, hq, -, -, -, rfl⟩
  · exact h.not_isBody
  · exact walk_not_isBody hq.not_isBody path

/-- A literal that is no word does not begin as an identifier does. -/
theorem Locus.IsWordly.ne_sign (h : p.IsWordly lexicon) (ht : lexicon.SetsOff t) (hx : x ≠ [])
    (hfront : x <+: t.toList) (path : List Symbol) : p ≠ ⟨.root, x.map .char ++ path⟩ := by
  rintro rfl
  obtain ⟨c, rest, hpath, hc⟩ := h rfl
  obtain ⟨d, x, rfl⟩ := List.exists_cons_of_ne_nil hx
  cases hpath
  obtain ⟨back, hback⟩ := hfront
  rw [(ht c (by rw [← hback]; rfl)).2.1] at hc
  cases hc

/-- Open-ended text does not end with the first character of a terminator. -/
theorem Locus.IsHome.not_begins (h : p.IsHome lexicon) (hp : lexicon.IsPlain matchers)
    {path : List Symbol} (hpath : p.path = path ++ [.char d]) : ¬lexicon.Begins d := by
  intro hd
  obtain ⟨-, hstart, hcontinue⟩ := hp.begins hd
  cases h with
  | category => simp at hpath
  | @word text hshape =>
    obtain ⟨front, last, rfl, -, hlast⟩ := List.map_eq_append_iff.1 hpath
    obtain ⟨d', rfl, hd'⟩ := List.map_eq_singleton_iff.1 hlast
    cases hd'
    cases front with
    | nil =>
      rw [List.nil_append, Lexicon.isIdentifierShaped, hstart] at hshape
      cases hshape
    | cons e front =>
      rw [List.cons_append, Lexicon.isIdentifierShaped, List.all_append, List.all_cons,
        hcontinue] at hshape
      simp at hshape

/-- From a node at which open-ended text ends, the walk goes along every terminator. -/
theorem StateGraph.Stops.follow (h : a.Stops lexicon j)
    (ht : t ∈ literalsOf lexicon.delimiters ++ literalsOf lexicon.punctuation) (hne : t.toList ≠ [])
    (hy : y <+: t.toList) : ∃ k, a.trie.follow? j (y.map .char) = some k := by
  obtain ⟨k, hk, -⟩ := h t (Lexicon.mem_terminators.2 (.inr ht))
  obtain ⟨rest, hrest⟩ := hy
  rw [spelling_of_ne_nil hne, ← hrest, List.map_append, Trie.follow?_append] at hk
  obtain ⟨m, hm, -⟩ := Option.bind_eq_some_iff.1 hk
  exact ⟨m, hm⟩

/-- A text that is too short for anything to begin inside it. -/
theorem Cursor.alert_of_length_le (hproper : lexicon.Proper matchers) (hc : c.pending.length ≤ 1) :
    c.Alert lexicon a := by
  refine ⟨Lexicon.unbroken_of_length_le hproper hc, fun _ hy _ hpending hfront => ?_⟩
  rw [hpending, List.length_append] at hc
  have hy' := List.length_pos_iff.2 hy
  have hfront' := List.length_pos_iff.2 hfront
  omega

/-- A terminator begins with a child. -/
theorem StateGraph.Stops.child (h : a.Stops lexicon j) (hproper : lexicon.Proper matchers)
    (hd : lexicon.Begins d) : ∃ k, a.trie.child? j (.char d) = some k := by
  obtain ⟨t, ht, hhead⟩ := hd
  obtain ⟨cs, hcs⟩ := List.head?_eq_some_iff.1 hhead
  obtain ⟨k, hk⟩ := h.follow ht (hproper.mark ht) (y := [d]) (by rw [hcs]; exact ⟨cs, rfl⟩)
  rw [List.map_singleton, Trie.follow?_cons] at hk
  obtain ⟨m, hm, -⟩ := Option.bind_eq_some_iff.1 hk
  exact ⟨m, hm⟩

/-- A symbol without a child releases the text at the end of punctuation. -/
theorem Charted.resolve_release (h : Charted lexicon matchers a place) {s : Symbol} {label : Label}
    (hc : a.trie.child? n s = none) (hf : (a.behaviour n).fallback = .release label) :
    a.resolve n s = .release label := by
  obtain ⟨hops, hsize⟩ := Nat.exists_eq_succ_of_ne_zero (Nat.ne_of_gt h.size_pos)
  rw [StateGraph.resolve, hsize, StateGraph.resolveWithin, hc]
  dsimp only
  rw [hf]

/-- A symbol without a child leads to where it leads from a node at rest. -/
theorem Charted.resolve_reroute (h : Charted lexicon matchers a place) {s : Symbol} {b : NodeId}
    (hc : a.trie.child? n s = none) (hf : (a.behaviour n).fallback = .reroute b)
    (hb : (place b).IsRest) : a.resolve n s = .node ((a.trie.child? b s).getD b) := by
  obtain ⟨hops, hsize⟩ := Nat.exists_eq_succ_of_ne_zero (Nat.ne_of_gt h.size_pos)
  rw [StateGraph.resolve, hsize, StateGraph.resolveWithin, hc]
  dsimp only
  rw [hf]
  exact h.resolveWithin_rest hb hops s

/-- A symbol without a child leads into a run if it is sent to the body. -/
theorem Charted.isBody_of_reroute (h : Charted lexicon matchers a place) {s : Symbol} {b : NodeId}
    {m : GreedyMatcher Compilation} {nested : Option RunId} (hc : a.trie.child? n s = none)
    (hf : (a.behaviour n).fallback = .reroute b) (hb : place b = ⟨.body b m nested, []⟩)
    (hr : a.resolve n s = .node n') : (place n').origin.IsBody := by
  rw [h.resolve_reroute hc hf (hb ▸ Locus.isRest_body b m nested)] at hr
  cases hr
  cases hk : a.trie.child? b s with
  | none => exact ⟨b, m, nested, by rw [Option.getD_none, hb]⟩
  | some k =>
    refine ⟨b, m, nested, ?_⟩
    rcases h.child hk with hdown | ⟨hroot, -, -⟩
    · rw [Option.getD_some, hdown, hb, Locus.down_of_origin_ne (by simp)]
    · cases hb.symm.trans hroot

end

namespace Signposted

variable {lexicon : Lexicon} {matchers : List (GreedyMatcher Compilation)} {a : Automaton}
  {place : NodeId → Locus} (h : Signposted lexicon matchers a place) {n n' j : NodeId} {d : Char}

include h

/-- A child is below its parent, unless it is a point. -/
theorem place_child (hc : a.trie.child? n (.char d) = some n') (hd : d ≠ '.') :
    place n' = ⟨(place n).origin, (place n).path ++ [.char d]⟩ := by
  rcases h.chart.child hc with hdown | ⟨-, heq, -⟩
  · obtain hdown' | ⟨-, heq, -⟩ := (place n).down_eq_or (.char d)
    · rw [hdown, hdown']
    · cases heq
      exact absurd rfl hd
  · cases heq
    exact absurd rfl hd

/-- On the way to a terminator no other one begins, or else something happens there. -/
theorem not_isEnd_of_begins (hunhidden : lexicon.Unhidden matchers) (hd : lexicon.Begins d)
    (hplace : place n' = ⟨(place n).origin, (place n).path ++ [.char d]⟩)
    (hn' : a.Clear place n') (ha' : (a.behaviour n').action = .none)
    (hopen : (place n').IsOpen lexicon) : ¬(place n).IsEnd lexicon := by
  intro hend
  rcases hopen with hhome | ⟨q, t, path, hq, ht, hne, hpath, hplace'⟩
  · exact hhome.not_begins h.plain (congrArg Locus.path hplace) hd
  rw [q.walk_end h.plain ht hpath] at hplace'
  obtain ⟨front, s, rfl⟩ := (List.eq_nil_or_concat path).resolve_left hne
  rw [List.concat_eq_append] at hplace' hpath hne
  have hsame := hplace.symm.trans hplace'
  rw [← List.append_assoc] at hsame
  obtain ⟨hfront, hlast⟩ := List.append_inj' (congrArg Locus.path hsame) rfl
  obtain rfl : Symbol.char d = s := List.head_eq_of_cons_eq hlast
  by_cases hnil : front = []
  · have heq : place n = q := by
      refine Locus.ext (Locus.mk.inj hsame).1 ?_
      rw [hfront, hnil, List.append_nil]
    exact hq.not_isEnd h.plain (heq ▸ hend)
  · -- The text up to there is a terminator, before which the walk would have stopped.
    obtain ⟨j, hj, hjn⟩ := h.hangs hn' hq hplace' hne
    have hmark : t ∈ literalsOf lexicon.delimiters ++ literalsOf lexicon.punctuation := by
      refine (Lexicon.mem_terminators.1 ht).resolve_left ?_
      rintro rfl
      obtain ⟨s, front, rfl⟩ := List.exists_cons_of_ne_nil hnil
      have hle := hpath.length_le
      simp [spelling] at hle
    rw [spelling_of_ne_nil (h.proper.mark hmark)] at hpath
    obtain ⟨x, hx, hxpath⟩ := List.prefix_map_iff.1 hpath
    obtain ⟨x, y, rfl, hxfront, hy⟩ := List.map_eq_append_iff.1 hxpath.symm
    obtain ⟨e, rfl, he⟩ := List.map_eq_singleton_iff.1 hy
    cases he
    obtain ⟨c, x, rfl⟩ := List.exists_cons_of_ne_nil (l := x) (by
      rintro rfl
      exact hnil hxfront.symm)
    have hlonger := hunhidden.marks t hmark _ hx ⟨d, by simp, hd⟩
    obtain ⟨k, hk, hacts⟩ := hj _ (Lexicon.mem_terminators.2 (.inr hlonger))
    rw [String.toList_ofList, spelling_of_ne_nil (by simp), ← hxpath] at hk
    cases hjn.symm.trans hk
    exact hacts ha'

/-- The first character of a terminator leads to a child of a node at which open-ended text ends. -/
theorem exists_stops_of_begins (hunhidden : lexicon.Unhidden matchers) (hn : a.Clear place n)
    (ha : (a.behaviour n).action = .none) (hroot : place n ≠ ⟨.root, []⟩) (hd : lexicon.Begins d)
    (hr : a.resolve n (.char d) = .node n') (hn' : a.Clear place n')
    (ha' : (a.behaviour n').action = .none) (hopen : (place n').IsOpen lexicon) :
    ∃ j, a.Stops lexicon j ∧ a.trie.child? j (.char d) = some n' := by
  have hbody : ¬(place n).origin.IsBody := fun hp =>
    hopen.not_isBody ((h.chart.leads hr).origin_eq hp ▸ hp)
  cases hc : a.trie.child? n (.char d) with
  | some m =>
    obtain rfl : m = n' := by
      cases (StateGraph.resolve_of_child hc).symm.trans hr
      rfl
    have hplace := h.place_child hc (h.plain.begins hd).1
    cases h.arises ha with
    | root hp => exact absurd hp hroot
    | body hp => exact absurd hp hbody
    | home hp =>
      obtain ⟨j, hj, hjn⟩ := h.hangs hn' hp hplace (by simp)
      refine ⟨j, hj, ?_⟩
      rw [Trie.follow?_cons] at hjn
      obtain ⟨k, hk, ⟨⟩⟩ := Option.bind_eq_some_iff.1 hjn
      exact hk
    | ending hp => exact absurd hp (h.not_isEnd_of_begins hunhidden hd hplace hn' ha' hopen)
    | sign ht hfront hne hp =>
      exact absurd (by rw [hplace, hp])
        (hopen.isWordly.ne_sign (h.plain.signs ht) hne hfront [.char d])
  | none =>
    have hstops : ¬a.Stops lexicon n := fun hstops => by
      obtain ⟨k, hk⟩ := hstops.child h.proper hd
      cases hc.symm.trans hk
    have hfit := h.chart.fallback n
    generalize hf : (a.behaviour n).fallback = f at hfit
    cases hfit with
    | stay =>
      obtain ⟨hpath, ho⟩ := h.chart.settled hf ha
      have hlink := hn.path
      rw [ho.resolve_right hbody, hpath] at hlink
      cases hlink
      exact absurd h.unknown hstops
    | unknown =>
      obtain ⟨k, hk⟩ := h.unknown.child h.proper hd
      rw [h.chart.resolve_reroute hc hf (h.chart.place_unknown ▸ Locus.isRest_unknown), hk] at hr
      cases hr
      exact ⟨.unknown, h.unknown, hk⟩
    | identifier => exact absurd (h.classify hn hf) hstops
    | digit => exact absurd (h.classify hn hf) hstops
    | decimal => exact absurd (h.classify hn hf) hstops
    | enter hb => exact absurd (h.chart.isBody_of_reroute hc hf hb hr) hopen.not_isBody
    | back hb => exact absurd (h.chart.isBody_of_reroute hc hf hb hr) hopen.not_isBody
    | release =>
      rw [h.chart.resolve_release hc hf] at hr
      cases hr
    | dispatch hp => exact absurd hp hroot

/-- On open-ended text the walk stays on the way to whatever the pending text may end with. -/
theorem alert_move (hunhidden : lexicon.Unhidden matchers) {c : Cursor} (hc : c.Alert lexicon a)
    (hn : a.Clear place c.node) (hspells : (place c.node).Spells c.pending)
    (ha : (a.behaviour c.node).action = .none) (hr : a.resolve c.node (.char d) = .node n')
    (hn' : a.Clear place n') (ha' : (a.behaviour n').action = .none)
    (hopen : (place n').IsOpen lexicon) : Cursor.Alert lexicon a ⟨n', c.pending ++ [d]⟩ := by
  have hfollows {t : String} {front y : List Char}
      (ht : t ∈ literalsOf lexicon.delimiters ++ literalsOf lexicon.punctuation) (hy : y ≠ [])
      (hyt : y <+: t.toList) (hpending : c.pending ++ [d] = front ++ y) (hfront : front ≠ []) :
      ∃ j, a.Stops lexicon j ∧ a.trie.follow? j (y.map .char) = some n' := by
    obtain ⟨y, e, rfl⟩ := (List.eq_nil_or_concat y).resolve_left hy
    rw [List.concat_eq_append] at hyt hpending ⊢
    rw [← List.append_assoc] at hpending
    obtain ⟨hbefore, hlast⟩ := List.append_inj' hpending rfl
    obtain rfl : d = e := List.head_eq_of_cons_eq hlast
    by_cases hnil : y = []
    · -- The terminator begins with the character.
      subst hnil
      have hroot : place c.node ≠ ⟨.root, []⟩ := fun hroot => by
        rw [hroot] at hspells
        rw [hspells.eq_of_root, List.append_nil] at hbefore
        exact hfront hbefore.symm
      obtain ⟨rest, hrest⟩ := hyt
      obtain ⟨j, hj, hjn⟩ := h.exists_stops_of_begins hunhidden hn ha hroot
        ⟨t, ht, by rw [← hrest]; rfl⟩ hr hn' ha' hopen
      refine ⟨j, hj, ?_⟩
      rw [List.nil_append, List.map_singleton, Trie.follow?_cons, hjn]
      rfl
    · -- The walk is on the way to the terminator, and the character leads on.
      obtain ⟨j, hj, hjn⟩ := hc.follows ht hnil ((List.prefix_append y [d]).trans hyt) hbefore
        hfront
      obtain ⟨k, hk⟩ := hj.follow ht (h.proper.mark ht) hyt
      refine ⟨j, hj, hk.trans ?_⟩
      rw [List.map_append, List.map_singleton, Trie.follow?_append, hjn] at hk
      obtain ⟨m, hm, ⟨⟩⟩ := Option.bind_eq_some_iff.1 ((Trie.follow?_cons ..).symm.trans hk)
      cases (StateGraph.resolve_of_child hm).symm.trans hr
      rfl
  refine ⟨fun t ht front back hpending => ?_, hfollows⟩
  rcases back.eq_nil_or_concat with rfl | ⟨back, e, rfl⟩
  · -- A terminator that ends the text would have acted.
    refine Classical.byContradiction fun hfront => ?_
    have hne := h.proper.mark ht
    obtain ⟨j, hj, hjn⟩ := hfollows ht hne List.prefix_rfl (hpending.trans (List.append_nil _))
      hfront
    obtain ⟨k, hk, hacts⟩ := hj t (Lexicon.mem_terminators.2 (.inr ht))
    rw [spelling_of_ne_nil hne, hjn] at hk
    cases hk
    exact hacts ha'
  · rw [List.concat_eq_append, ← List.append_assoc] at hpending
    exact hc.unbroken t ht front back (List.append_inj' hpending rfl).1

/-- A literal that is no word leads into a run, or to a place that begins no identifier. -/
theorem isBody_of_sign {t : String} (ht : lexicon.Signs matchers t)
    (hp : place n = ⟨.root, spelling t.toList⟩) (hn : a.Clear place n)
    (ha : (a.behaviour n).action = .none) {s : Symbol} (hr : a.resolve n s = .node n')
    (hwordly : (place n').IsWordly lexicon) : (place n').origin.IsBody := by
  cases hc : a.trie.child? n s with
  | some m =>
    cases (StateGraph.resolve_of_child hc).symm.trans hr
    have hne := h.proper.sign ht
    have hdown := (h.chart.child hc).resolve_right fun hroot =>
      spelling_ne_nil _ (congrArg Locus.path (hp.symm.trans hroot.1))
    rw [hp, Locus.down_of_origin_ne (by simp), spelling_of_ne_nil hne] at hdown
    exact absurd hdown (hwordly.ne_sign (h.plain.signs ht) hne List.prefix_rfl [s])
  | none =>
    have hlink := hn.path
    rw [hp] at hlink
    rcases (h.leaves ht hlink).resolve_left fun hacts => hacts ha with ⟨label, hf⟩ | ⟨b, hf, hb⟩
    · rw [h.chart.resolve_release hc hf] at hr
      cases hr
    · have hfit := h.chart.fallback n
      rw [hf] at hfit
      cases hfit with
      | unknown => exact absurd rfl hb
      | enter hbody => exact h.chart.isBody_of_reroute hc hf hbody hr
      | back hbody => exact h.chart.isBody_of_reroute hc hf hbody hr

omit h in
/-- On the way to a literal that is no word nothing begins unless the text is such a literal. -/
theorem waits_sign (hproper : lexicon.Proper matchers) (hunhidden : lexicon.Unhidden matchers)
    {c : Cursor} {t : String} (ht : lexicon.Signs matchers t) (hfront : c.pending <+: t.toList)
    (hne : c.pending ≠ []) (hp : place c.node = ⟨.root, c.pending.map .char⟩) :
    c.Waits lexicon matchers a place := by
  by_cases hbegins : ∃ d ∈ c.pending.tail, lexicon.Begins d
  · refine .sign (hunhidden.signs ht hfront hbegins) (hp.trans ?_)
    rw [String.toList_ofList, spelling_of_ne_nil hne]
  · refine .alert ⟨fun u hu front back hpending => ?_, fun hu hy hyt hpending hfront => ?_⟩
    · refine Classical.byContradiction fun hfront => hbegins ?_
      rw [hpending]
      exact Lexicon.exists_begins_of_append hu (hproper.mark hu) List.prefix_rfl hfront
    · refine absurd ?_ hbegins
      rw [hpending, ← List.append_nil (_ ++ _)]
      exact Lexicon.exists_begins_of_append hu hy hyt hfront

/-- Between two characters the walk is in a run, at the end of a literal that is no word, or on the
way to whatever the pending text may end with. -/
theorem waits_move (hunhidden : lexicon.Unhidden matchers) {c c' : Cursor} {ls : List Lexeme}
    (hc : c.Waits lexicon matchers a place) (hn : a.Clear place c.node)
    (hspells : (place c.node).Spells c.pending) (ha : (a.behaviour c.node).action = .none)
    (hm : a.move c (.char d) = .ok (c', ls)) (hn' : a.Clear place c'.node)
    (hspells' : (place c'.node).Spells c'.pending) (ha' : (a.behaviour c'.node).action = .none) :
    c'.Waits lexicon matchers a place := by
  rw [StateGraph.move] at hm
  split at hm
  · next n hr =>
    cases hm
    have hopened (hopen : (place n).IsOpen lexicon) :
        Cursor.Waits lexicon matchers a place ⟨n, c.pending ++ [d]⟩ := by
      cases hc with
      | body hbody => exact absurd ((h.chart.leads hr).origin_eq hbody ▸ hbody) hopen.not_isBody
      | sign ht hp => exact absurd (h.isBody_of_sign ht hp hn ha hr hopen.isWordly) hopen.not_isBody
      | alert halert => exact .alert (h.alert_move hunhidden halert hn hspells ha hr hn' ha' hopen)
    cases h.arises ha' with
    | root hp =>
      rw [hp] at hspells'
      exact .alert (Cursor.alert_of_length_le h.proper (by rw [hspells'.eq_of_root]; simp))
    | body hp => exact .body hp
    | home hp => exact hopened (.inl hp)
    | ending hp => exact hopened (.inr hp)
    | sign ht hfront hne hp =>
      rw [hp] at hspells'
      have htext := hspells'.eq_of_root
      rw [pathText_map_char] at htext
      exact waits_sign h.proper hunhidden ht (htext ▸ hfront) (htext ▸ hne) (htext ▸ hp)
  · split at hm
    · cases hm
      exact .alert (Cursor.alert_of_length_le h.proper (Nat.le_refl 1))
    · cases hm

/-- Nothing begins in text that is given out before a terminator. -/
theorem unbroken_of_move {c c' : Cursor} {s : Symbol} {ls : List Lexeme}
    (hc : c.Waits lexicon matchers a place) (hn : a.Clear place c.node)
    (ha : (a.behaviour c.node).action = .none) (hm : a.move c s = .ok (c', ls)) {label : Label}
    {length : Nat} (hb : (a.behaviour c'.node).action = .boundary label length) {before : List Char}
    {t : String} (hpath : ∃ front, (place c'.node).path = front ++ spelling t.toList)
    (hpending : c'.pending = before ++ t.toList) : lexicon.Unbroken before := by
  have hbears : (place c'.node).IsWordly lexicon ∧ ¬(place c'.node).origin.IsBody := by
    have htitle := h.titled.action c'.node
    rw [hb] at htitle
    cases htitle with
    | @boundary q _ u hq hp =>
      have hhome := hq.isHome h.plain
      rw [hp]
      exact ⟨hhome.isWordly.walk _, Locus.walk_not_isBody hhome.not_isBody _⟩
  have hlast := h.chart.path_of_move ha hm
  rw [StateGraph.move] at hm
  split at hm
  · next n hr =>
    cases hm
    cases hc with
    | body hbody => exact absurd ((h.chart.leads hr).origin_eq hbody ▸ hbody) hbears.2
    | sign ht hp => exact absurd (h.isBody_of_sign ht hp hn ha hr hbears.1) hbears.2
    | alert halert =>
      refine halert.unbroken.of_prefix ?_
      cases s with
      | endOfInput => exact ⟨t.toList, hpending.symm.trans (List.append_nil _)⟩
      | char d =>
        rcases t.toList.eq_nil_or_concat with hnil | ⟨front, e, hconcat⟩
        · -- Only the end of input ends text before the empty terminator.
          obtain ⟨front, hfront⟩ := hpath
          rw [hnil] at hfront
          rcases hlast with hlast | ⟨front', hlast⟩
          · exact absurd (List.append_eq_nil_iff.1 (hfront.symm.trans hlast)).2 (spelling_ne_nil _)
          · obtain ⟨-, hend⟩ := List.append_inj' (hfront.symm.trans hlast) rfl
            cases hend
        · rw [hconcat, List.concat_eq_append, ← List.append_assoc] at hpending
          exact ⟨front, (List.append_inj' hpending rfl).1.symm⟩
  · split at hm
    · cases hm
      refine Lexicon.unbroken_of_length_le h.proper ?_
      have hlength := congrArg List.length hpending
      have htext : s.text.length ≤ 1 := by cases s <;> simp [Symbol.text]
      rw [List.length_append] at hlength
      exact Nat.le_trans (Nat.le_add_right ..) (hlength ▸ htext)
    · cases hm

end Signposted

/-! ### Lexemes -/

/-- In a lexeme nothing begins behind the first character, or else its label is not one of those of
open-ended text. Text without a label makes no token. -/
inductive Lexeme.Stopped (g : Grammar) : Lexeme → Prop
  | silent (x : List Char) : Stopped g (.plain x none)
  | unbroken {x : List Char} (label : Label) (hx : g.Unbroken x) : Stopped g (.plain x (some label))
  | literal (x : List Char) {label : Label} (group : LabelGroup) (hgroup : group ≠ .category)
      (hlabel : label ∈ g.labelsOf group) : Stopped g (.plain x (some label))
  | run (x : List Char) {c : Close} (group : LabelGroup) (hgroup : group ≠ .category)
      (hlabel : c.label ∈ g.labelsOf group) : Stopped g (.whole x c)

/-- The label of a run belongs to its matcher. -/
theorem Close.Ends.exists_group {g : Grammar} {b : NodeId} {m : GreedyMatcher Compilation}
    {nested : Option RunId} {t : String} {c : Close} (h : c.Ends g.labels b m nested t)
    (hm : m ∈ compileMatchers g.greedyMatchers) (ht : m.terminator ≠ none) :
    ∃ group, group ≠ .category ∧ c.label ∈ g.labelsOf group := by
  obtain ⟨x, hx, hkind, -, hterminator, -⟩ := exists_of_mem_compileMatchers hm
  have hmem : x ∈ g.greedyMatchers.filter (·.terminator.isSome) := by
    rw [List.mem_filter, ← hterminator, Option.isSome_iff_ne_none]
    exact ⟨hx, ht⟩
  have hhalted : g.labels.halted m.kind ∈ g.labelsOf .halted :=
    List.mem_map.2 ⟨x, hmem, by rw [hkind]⟩
  rcases h.way with ⟨-, hlabel, -⟩ | ⟨-, hlabel, -⟩ | ⟨-, hlabel, -⟩
  · exact ⟨.run, by decide, List.mem_map.2 ⟨x, hmem, by rw [hlabel, hkind]⟩⟩
  · exact ⟨.halted, by decide, hlabel ▸ hhalted⟩
  · exact ⟨.halted, by decide, hlabel ▸ hhalted⟩

namespace Signposted

variable {g : Grammar} {a : Automaton} {place : NodeId → Locus}
  (h : Signposted g.toLexicon (compileMatchers g.greedyMatchers) a place) {inner : InnerScan}
  {r r' : Reading} {c c' : Cursor} {s : Symbol} {ls : List Lexeme} {slack : Nat}

include h

/-- What goes out before a symbol that makes no longer literal is punctuation. -/
theorem stopped_move (hm : a.move c s = .ok (c', ls)) : ∀ l ∈ ls, l.Stopped g := by
  refine StateGraph.forall_of_move (fun n text label hn => ?_) hm
  obtain ⟨t, hmark, -⟩ := h.titled.fallback n label hn
  exact .literal _ .punctuation (by decide) hmark.mem_labelsOf

variable (hflat : ∀ m ∈ compileMatchers g.greedyMatchers, m.subGrammar = none)

include hflat

/-- What a node gives out is a literal or a run. -/
theorem stopped_settle (hspells : (place r.node).Spells r.pending)
    (hb : ∀ label length, (a.behaviour r.node).action ≠ .boundary label length)
    (hs : r.settle a inner = .ok (r', ls)) :
    (∀ l ∈ ls, l.Stopped g) ∧
      (((a.behaviour r.node).action = .none →
          r.Waits g.toLexicon (compileMatchers g.greedyMatchers) a place) →
        r'.Waits g.toLexicon (compileMatchers g.greedyMatchers) a place) := by
  have hroot : Cursor.Waits g.toLexicon (compileMatchers g.greedyMatchers) a place {} :=
    .alert (Cursor.alert_of_length_le h.proper (Nat.zero_le 1))
  have htitle := h.titled.action r.node
  rw [Reading.settle] at hs
  split at hs
  · next hc =>
    cases hs
    exact ⟨List.forall_mem_nil _, fun hwaits => hwaits hc⟩
  · next hc => exact absurd hc (hb _ _)
  · next label hc =>
    cases hs
    refine ⟨List.forall_mem_singleton.2 ?_, fun _ => hroot⟩
    rw [hc] at htitle
    cases htitle with
    | literal hdelimits =>
      rw [h.unnamed]
      cases hkind : label.or g.unnamedLabel with
      | none => exact .silent _
      | some kind => exact .literal _ .delimiter (by decide) (hdelimits.mem_labelsOf hkind)
  · next c hc =>
    obtain ⟨b, m, nested, t, interior, hp, hends, -⟩ := h.chart.close_spells hc hspells
    obtain ⟨hbody, -, hm, -⟩ := h.chart.body hp
    have hnested : c.nested = none := hends.nested.trans (h.chart.nested_eq_none hflat hp)
    obtain ⟨escaped, -, hs⟩ := bind_eq_ok.1 hs
    cases escaped with
    | true =>
      cases hs
      refine ⟨List.forall_mem_nil _, fun _ => .body ⟨b, m, nested, ?_⟩⟩
      change (place c.body).origin = _
      rw [hends.body, hbody]
    | false =>
      rw [if_neg Bool.false_ne_true, hnested] at hs
      cases hs
      refine ⟨List.forall_mem_singleton.2 ?_, fun _ => hroot⟩
      rw [hc] at htitle
      cases htitle with
      | close hterminated hp' =>
        cases hp.symm.trans hp'
        obtain ⟨group, hgroup, hlabel⟩ := hends.exists_group hm hterminated
        exact .run _ group hgroup hlabel

/-- Text that goes out before a terminator is unbroken, and the walk is on the way to terminators
again. -/
theorem stopped_act (hr : r.Poised a place slack) (hspells : (place r.node).Spells r.pending)
    (hclear : a.Clear place r.node)
    (hunbroken : ∀ label length, (a.behaviour r.node).action = .boundary label length →
      ∀ (before : List Char) (t : String),
        (∃ front, (place r.node).path = front ++ spelling t.toList) →
        r.pending = before ++ t.toList → g.Unbroken before)
    (hs : r.act a inner = .ok (r', ls)) :
    (∀ l ∈ ls, l.Stopped g) ∧
      (((a.behaviour r.node).action = .none →
          r.Waits g.toLexicon (compileMatchers g.greedyMatchers) a place) →
        r'.Waits g.toLexicon (compileMatchers g.greedyMatchers) a place) := by
  by_cases hb : ∃ label length, (a.behaviour r.node).action = .boundary label length
  · obtain ⟨label, length, hb⟩ := hb
    obtain ⟨before, t, m, out, hpath, hcut, hends, -, hplace, rfl, -, hsettle⟩ :=
      hr.act_boundary h.chart h.resumes hspells hclear hb hs
    obtain ⟨hpending, hlength⟩ := cutBack_eq_ok.1 hcut
    have hmem : t ∈ g.terminators := by
      obtain ⟨u, hu, front, hfront, hlength'⟩ :=
        h.chart.boundary_spells h.plain.lonePoint hb hspells
      obtain ⟨-, htext⟩ := Prod.mk.inj (Except.ok.inj
        (hcut.symm.trans (cutBack_eq_ok.2 ⟨hfront, hlength'⟩)))
      rwa [String.toList_inj.1 htext]
    have hm : (place m).Spells t.toList := by
      rw [hplace]
      exact ⟨[], rfl, (pathText_map_char _).symm⟩
    have hboundary (label : Label) (length : Nat) :
        (a.behaviour m).action ≠ .boundary label length := by
      rcases hends with hends | ⟨_, hends⟩ <;> rw [hends] <;> nofun
    obtain ⟨hout, hwaits⟩ := h.stopped_settle hflat
      (r := { node := m, pending := t.toList, idle := r.idle }) hm hboundary hsettle
    refine ⟨List.forall_mem_cons.2 ⟨.unbroken label (hunbroken _ _ hb _ _ hpath hpending), hout⟩,
      fun _ => hwaits fun _ => ?_⟩
    rcases Lexicon.mem_terminators.1 hmem with rfl | hmark
    · exact .alert (Cursor.alert_of_length_le h.proper (Nat.zero_le 1))
    · refine .sign (Lexicon.signs_of_mem hmark) (hplace.trans ?_)
      rw [spelling_of_ne_nil (h.proper.mark hmark)]
  · rw [Reading.act] at hs
    split at hs
    · next hb' => exact absurd ⟨_, _, hb'⟩ hb
    · exact h.stopped_settle hflat hspells (fun _ _ hb' => hb ⟨_, _, hb'⟩) hs

end Signposted

/-! ### Whole inputs -/

/-- A steady scan that is on the way to every terminator. -/
structure Reading.Waiting (lexicon : Lexicon) (matchers : List (GreedyMatcher Compilation))
    (a : Automaton) (place : NodeId → Locus) (r : Reading) : Prop where
  steady : r.Steady a place
  waits : r.Waits lexicon matchers a place

namespace Reading.Waiting

variable {g : Grammar} {a : Automaton} {place : NodeId → Locus} {inner : InnerScan}
  {r r' : Reading} {ls : List Lexeme}
  (h : Signposted g.toLexicon (compileMatchers g.greedyMatchers) a place)
  (hflat : ∀ m ∈ compileMatchers g.greedyMatchers, m.subGrammar = none)
  (hunhidden : g.toLexicon.Unhidden (compileMatchers g.greedyMatchers))

include h hflat hunhidden

/-- A symbol only gives out lexemes that stop at terminators. -/
theorem advance (hr : r.Waiting g.toLexicon (compileMatchers g.greedyMatchers) a place) {s : Symbol}
    (ha : r.advance a inner s = .ok (r', ls)) :
    (∀ l ∈ ls, l.Stopped g) ∧ ((∃ d, s = .char d) →
      r'.Waiting g.toLexicon (compileMatchers g.greedyMatchers) a place) := by
  have hsteady := hr.steady.advance h.chart h.plain.lonePoint h.resumes ha
  obtain ⟨⟨c, released⟩, hm, ha⟩ := bind_eq_ok.1 ha
  obtain ⟨r₁, he, ha⟩ := bind_eq_ok.1 ha
  obtain ⟨⟨r₂, out⟩, hact, ha⟩ := bind_eq_ok.1 ha
  obtain ⟨r₃, hfeed, ha⟩ := bind_eq_ok.1 ha
  cases ha
  have hcursor := Reading.feed_toCursor hfeed
  have henter := Reading.enter_toCursor he
  have hrests := hr.steady.isSpelled.rests
  have hclear := hr.steady.clear_move h.chart (fun _ => h.resumes.float) hm
  have hspells := hr.steady.isSpelled.enter h.chart hm he
  obtain ⟨hout, hwaits⟩ := h.stopped_act hflat (hr.steady.sound.enter h.chart hm he) hspells
    (by rw [henter]; exact hclear) (by
      rw [henter]
      exact fun _ _ hb _ _ => h.unbroken_of_move hr.waits hr.steady.clear hrests hm hb) hact
  refine ⟨List.forall_mem_append.2 ⟨h.stopped_move hm, hout⟩, ?_⟩
  rintro ⟨d, rfl⟩
  refine ⟨hsteady, ?_⟩
  rw [hcursor]
  refine hwaits fun hnone => ?_
  rw [henter] at hnone hspells ⊢
  exact h.waits_move hunhidden hr.waits hr.steady.clear hr.steady.isSpelled.spells hrests hm hclear
    hspells hnone

theorem read (hr : r.Waiting g.toLexicon (compileMatchers g.greedyMatchers) a place) {x : List Char}
    (hread : r.read a inner x = .ok (r', ls)) : (∀ l ∈ ls, l.Stopped g) ∧
      r'.Waiting g.toLexicon (compileMatchers g.greedyMatchers) a place := by
  induction x generalizing r ls with
  | nil =>
    cases hread
    exact ⟨List.forall_mem_nil _, hr⟩
  | cons c x ih =>
    obtain ⟨⟨r₁, out⟩, ha, hread⟩ := bind_eq_ok.1 hread
    obtain ⟨⟨r₂, outs⟩, hread', hread⟩ := bind_eq_ok.1 hread
    cases hread
    obtain ⟨hout, hr₁⟩ := hr.advance h hflat hunhidden ha
    obtain ⟨houts, hr'⟩ := ih (hr₁ ⟨c, rfl⟩) hread'
    exact ⟨List.forall_mem_append.2 ⟨hout, houts⟩, hr'⟩

end Reading.Waiting

/-- The lexemes of a whole input stop at terminators. -/
theorem Signposted.stopped_lexemes {g : Grammar} {a : Automaton} {place : NodeId → Locus}
    (h : Signposted g.toLexicon (compileMatchers g.greedyMatchers) a place)
    (hflat : ∀ m ∈ compileMatchers g.greedyMatchers, m.subGrammar = none)
    (hunhidden : g.toLexicon.Unhidden (compileMatchers g.greedyMatchers)) {x : String}
    {ls : List Lexeme} (hx : a.lexemes x = .ok ls) : ∀ l ∈ ls, l.Stopped g := by
  obtain ⟨r₁, ls₁, r₂, ls₂, hread, ha, rfl⟩ := Automaton.exists_of_lexemes hx
  have hstart : Reading.Waiting g.toLexicon (compileMatchers g.greedyMatchers) a place
      { idle := Array.replicate a.runs.length none } :=
    ⟨Reading.steady_root h.chart _, .alert (Cursor.alert_of_length_le h.proper (Nat.zero_le 1))⟩
  obtain ⟨hls₁, hr₁⟩ := hstart.read h hflat hunhidden hread
  exact List.forall_mem_append.2 ⟨hls₁, List.forall_mem_append.2
    ⟨(hr₁.advance h hflat hunhidden ha).1, List.forall_mem_singleton.2 (.silent _)⟩⟩

/-- The literals and openers of a grammar stay the same when its interiors are compiled. -/
theorem Lexicon.Unhidden.compileMatchers {lexicon : Lexicon} {ms : List (GreedyMatcher Grammar)}
    (h : lexicon.Unhidden ms) : lexicon.Unhidden (TrieLexer.compileMatchers ms) where
  marks := h.marks
  openers m hm ht x hx hc := by
    obtain ⟨m', hm', -, hopener, hterminator, -⟩ := exists_of_mem_compileMatchers hm
    rw [hterminator] at ht
    rw [hopener] at hx
    refine (h.openers m' hm' ht x hx hc).imp_right ?_
    rintro ⟨k, hk, hkt, hkx⟩
    refine ⟨compileMatcher k, ?_, by cases k; exact hkt, by cases k; exact hkx⟩
    rw [compileMatchers_eq]
    exact List.mem_map_of_mem hk

namespace Grammar

variable {g : Grammar} {a : Automaton}

/-- Unknown text stops at the first terminator: no delimiter and no punctuation literal begins
behind its first character. -/
theorem stopping (h : g.compile.result = .ok a) (hplain : g.toLexicon.IsPlain g.greedyMatchers)
    (hflat : ∀ m ∈ g.greedyMatchers, m.subGrammar = none)
    (hunhidden : g.toLexicon.Unhidden g.greedyMatchers)
    (hunknown : ∀ group, g.labels.unknown ∈ g.labelsOf group → group = .category) (input : String) :
    ∃ tokens, a.tokenize input = .ok tokens ∧ ∀ t ∈ tokens, t.kind = g.labels.unknown →
      ∀ u ∈ literalsOf g.delimiters ++ literalsOf g.punctuation, ∀ front back,
        t.value.toList = front ++ u.toList ++ back → front = [] := by
  obtain ⟨place, hsigns⟩ := signposted_compile h hplain
  obtain ⟨tokens, htokens⟩ := (lawful_of_flat h hflat hplain.lonePoint).exists_tokenize input
  refine ⟨tokens, htokens, fun t ht hkind => ?_⟩
  obtain ⟨ls, hls, rfl⟩ := hsigns.chart.exists_lexemes htokens
  obtain ⟨front, l, back, rfl, hmem⟩ := exists_of_mem_listing ht
  have hl := hsigns.stopped_lexemes (flat_compileMatchers hflat) hunhidden.compileMatchers hls l
    (by simp)
  cases hl with
  | silent => cases hmem
  | unbroken label hx =>
    rw [Lexeme.tokens] at hmem
    obtain ⟨-, rfl, -⟩ := mem_tokenAt hmem
    exact hx
  | literal x group hgroup hlabel =>
    rw [Lexeme.tokens] at hmem
    obtain ⟨hlabel', -, -⟩ := mem_tokenAt hmem
    cases hlabel'
    exact absurd (hunknown group (hkind ▸ hlabel)) hgroup
  | run x group hgroup hlabel =>
    rw [Lexeme.tokens] at hmem
    obtain ⟨hlabel', -, -⟩ := mem_tokenAt hmem
    rw [Option.some.inj hlabel', hkind] at hlabel
    exact absurd (hunknown group hlabel) hgroup

/-- A grammar whose literals begin inside other ones, but only where the text up to there is a
literal as well. -/
def overlaid : Grammar where
  keywords := [.bare "let"]
  punctuation := [.bare "<", .named "arrow" (.many ["<-", "<--"])]
  delimiters := [.bare "-", .named "space" (.one " ")]
  greedyMatchers := [{ kind := "comment", startsWith := "<!-", endsWith := some "->" }]

theorem stopping_overlaid : ∃ a, overlaid.compile.result = .ok a ∧
    ∃ tokens, a.tokenize "?<--?!-let <!-?->?<!?-" = .ok tokens ∧
      ∀ t ∈ tokens, t.kind = overlaid.labels.unknown →
        ∀ u ∈ literalsOf overlaid.delimiters ++ literalsOf overlaid.punctuation, ∀ front back,
          t.value.toList = front ++ u.toList ++ back → front = [] := by
  obtain ⟨a, -, -, ha, -⟩ := overlaid.exists_run [] (by decide +kernel)
  refine ⟨a, ha, stopping ha (by decide +kernel) (fun m hm => ?_) (by decide +kernel)
    (fun group => by cases group <;> decide) _⟩
  rw [List.mem_singleton.1 hm]

/-- An opener that is given up is unknown text, which stops at a literal as well. -/
example : (overlaid.compile.result.toOption.bind fun a => (a.tokenize "?<!?-<-").toOption) =
    some [⟨"?", "UNKNOWN", 0⟩, ⟨"<!?", "UNKNOWN", 1⟩, ⟨"<-", "arrow", 5⟩] := by
  decide +kernel

/-- A grammar with a delimiter that stands inside another one. -/
def dashed : Grammar where
  delimiters := [.bare "+-*", .bare "-"]
  conflicts := .reject

/-- The longer delimiter is given up at the letter, and only the letter is read again: the shorter
one that stands in its text is swallowed by the run of unknown text. -/
theorem tokenize_overlooked : ∃ a, dashed.conflicts = .reject ∧ dashed.greedyMatchers = [] ∧
    (∀ group, dashed.labels.unknown ∈ dashed.labelsOf group → group = .category) ∧
    dashed.labels.unknown ∉
      [dashed.labels.identifier, dashed.labels.number, dashed.labels.decimal] ∧
    dashed.compile.result = .ok a ∧
    a.tokenize "?+-x" = .ok [⟨"?+-x", dashed.labels.unknown, 0⟩] ∧
    "-" ∈ literalsOf dashed.delimiters ∧ "?+-x" = "?+" ++ "-" ++ "x" := by
  have htokens : (dashed.compile.result.toOption.bind fun a => (a.tokenize "?+-x").toOption) =
      some [⟨"?+-x", dashed.labels.unknown, 0⟩] := by
    decide +kernel
  obtain ⟨a, ha, htokens⟩ := exists_tokens htokens
  exact ⟨a, rfl, rfl, fun group => by cases group <;> decide, by decide, ha, htokens, by decide,
    by decide⟩

end Grammar

end TrieLexer
