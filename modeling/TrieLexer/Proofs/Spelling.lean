import TrieLexer.Proofs.Interiors

/-!
# What the pending text spells

As long as no mark goes on after a point at its beginning, the pending text ends with what the path
to the node of the walk spells. On a path from the root it is nothing else, and inside a run it
begins with the opener. So the end of an open-ended token cuts off its terminator, the terminator
leads from the root to its mark, and a run is given out with its opener and its end.

The point is an exception because the node of numbers with a point belongs to two paths: it is the
child of the node of whole numbers, but digits lead back to it. A terminator that goes on after a
point may be complete there although other digits came in between.

## Main definitions

* `Locus.Spells` — a text that may be pending at a place.
* `Reading.Spelled` — a scan between two symbols whose pending text is spelled.
* `Lexeme.Formed` — a run that is given out with its opener and its end.

## Main results

* `Locus.Leads.spells` — every symbol is spelled.
* `Charted.boundary_spells` — the end of an open-ended token cuts off its terminator.
* `Reading.Spelled.take` — scans stay spelled, and the runs that they give out are formed.
-/

namespace TrieLexer

open Text (byteLength)

/-! ### Places -/

/-- What stands before the path to a node: nothing before a path from the root, and at least the
opener before a path in a run. -/
def Origin.Opens : Origin → List Char → Prop
  | root, before => before = []
  | body _ m _, before => m.startsWith.toList <+: before
  | _, _ => True

/-- A text may be pending at a place: it ends with the path. -/
def Locus.Spells (p : Locus) (text : List Char) : Prop :=
  ∃ before, p.origin.Opens before ∧ text = before ++ pathText p.path

namespace Locus

variable {p q : Locus} {text : List Char} {s : Symbol}

theorem spells_of_path_eq_nil (hpath : p.path = []) (h : p.origin.Opens text) : p.Spells text :=
  ⟨text, h, by rw [hpath, pathText_nil, List.append_nil]⟩

theorem Spells.down (h : p.Spells text) (s : Symbol) : (p.down s).Spells (text ++ s.text) := by
  obtain ⟨before, hopens, rfl⟩ := h
  obtain hd | ⟨-, -, hd⟩ := p.down_eq_or s
  · exact ⟨before, by rwa [hd], by rw [hd]; simp⟩
  · rw [hd]
    exact spells_of_path_eq_nil rfl trivial

/-- Every symbol is spelled. -/
theorem Leads.spells {stays : Prop} (hl : p.Leads stays s q) (hstays : stays → p.IsRest)
    (h : p.Spells text) : q.Spells (text ++ s.text) := by
  have hrun {m : GreedyMatcher Compilation} {b : NodeId} {nested : Option RunId}
      {rest : List Symbol} (hopener : m.startsWith.toList <+: text)
      (hrest : rest = [] ∨ rest = [s]) : Spells ⟨.body b m nested, rest⟩ (text ++ s.text) := by
    rcases hrest with rfl | rfl
    · exact spells_of_path_eq_nil rfl (hopener.trans (List.prefix_append ..))
    · exact ⟨text, hopener, by simp⟩
  cases hl with
  | down => exact h.down s
  | point => exact spells_of_path_eq_nil rfl trivial
  | decimal => exact spells_of_path_eq_nil rfl trivial
  | stay hstay =>
    obtain ⟨hpath, ho⟩ := hstays hstay
    obtain ⟨before, hopens, rfl⟩ := h
    refine spells_of_path_eq_nil hpath ?_
    rcases ho with ho | ⟨b, m, nested, ho⟩
    · rw [ho]
      trivial
    · rw [ho] at hopens ⊢
      exact hopens.trans ((List.prefix_append ..).trans (List.prefix_append ..))
  | category hp ho => rcases ho with rfl | rfl | rfl <;> exact spells_of_path_eq_nil rfl trivial
  | unknown hp => exact ⟨text, trivial, by simp⟩
  | enter hp hrest =>
    obtain ⟨before, hopens, rfl⟩ := h
    subst hp
    obtain rfl : before = [] := hopens
    exact hrun (by simp) hrest
  | back hp hrest =>
    obtain ⟨before, hopens, rfl⟩ := h
    subst hp
    exact hrun (List.IsPrefix.trans hopens (List.prefix_append ..)) hrest

end Locus

/-! ### The walk -/

theorem StateGraph.resolve_of_child {g : StateGraph} {n m : NodeId} {s : Symbol}
    (h : g.trie.child? n s = some m) : g.resolve n s = .node m := by
  rw [resolve, resolveWithin, h]

/-- A text that spells a path is taken again along the path. -/
theorem StateGraph.retake_of_follow? {g : StateGraph} {n k : NodeId} {text pending : List Char}
    (h : g.trie.follow? n (text.map .char) = some k) :
    g.retake ⟨n, pending⟩ text = .ok (⟨k, pending ++ text⟩, []) := by
  induction text generalizing n pending with
  | nil =>
    cases h
    rw [List.append_nil]
    rfl
  | cons c text ih =>
    rw [List.map_cons, Trie.follow?_cons] at h
    obtain ⟨m, hm, h⟩ := Option.bind_eq_some_iff.1 h
    have hmove : g.move ⟨n, pending⟩ (.char c) = .ok (⟨m, pending ++ [c]⟩, []) := by
      rw [move, resolve_of_child hm]
      rfl
    rw [retake, hmove, ok_bind]
    change g.retake ⟨m, pending ++ [c]⟩ text >>= _ = _
    rw [ih h, ok_bind, List.append_assoc]
    rfl

namespace Charted

variable {lexicon : Lexicon} {matchers : List (GreedyMatcher Compilation)} {a : Automaton}
  {place : NodeId → Locus} {n : NodeId} {text : List Char}

/-- The walk goes on spelling. -/
theorem spells_move (h : Charted lexicon matchers a place) {c c' : Cursor} {s : Symbol}
    {ls : List Lexeme} (hc : (place c.node).Spells c.pending)
    (hrest : (a.behaviour c.node).action = .none) (hm : a.move c s = .ok (c', ls)) :
    (place c'.node).Spells c'.pending := by
  rw [StateGraph.move] at hm
  split at hm
  · next hr =>
    cases hm
    exact (h.leads hr).spells (fun hstay => h.settled hstay hrest) hc
  · split at hm
    · next hr =>
      cases hm
      have hroot : (place .root).Spells [] := by
        rw [h.place_root]
        exact ⟨[], rfl, rfl⟩
      exact (h.leads hr).spells (fun hstay => h.settled hstay h.action_root) hroot
    · cases hm

/-- The path to the end of an open-ended token ends with its terminator. -/
theorem boundary_path (h : Charted lexicon matchers a place) (hlone : lexicon.LonePoint)
    {label : Label} {length : Nat} (hb : (a.behaviour n).action = .boundary label length) :
    ∃ t ∈ lexicon.terminators, byteLength t.toList = length ∧
      ∃ front, (place n).path = front ++ spelling t.toList := by
  have hfit := h.action n
  rw [hb] at hfit
  cases hfit with
  | @boundary q t ht hq hp =>
    refine ⟨t, ht, rfl, ?_⟩
    cases hspell : spelling t.toList with
    | nil => exact absurd hspell (spelling_ne_nil _)
    | cons s rest =>
      rw [hspell, Locus.walk_cons] at hp
      obtain hd | ⟨-, rfl, hd⟩ := q.down_eq_or s
      · rw [hd, Locus.walk_of_path_ne (by simp)] at hp
        exact ⟨q.path, by rw [hp]; simp⟩
      · -- The terminator is the point alone, and nothing ends at the point.
        rw [hd, Locus.walk_of_origin_ne (by simp)] at hp
        have hhead : t.toList.head? = some '.' := by
          cases hlist : t.toList with
          | nil => rw [hlist] at hspell; cases hspell
          | cons c cs =>
            rw [hlist, spelling_cons] at hspell
            rw [List.head?_cons, Symbol.char.inj (List.cons.inj hspell).1]
        obtain rfl := hlone t ht hhead
        cases hspell
        cases (h.float hp).symm.trans hb

/-- The end of an open-ended token stands where its terminator has been spelled. -/
theorem boundary_spells (h : Charted lexicon matchers a place) (hlone : lexicon.LonePoint)
    {label : Label} {length : Nat} (hb : (a.behaviour n).action = .boundary label length)
    (hs : (place n).Spells text) : ∃ t ∈ lexicon.terminators, ∃ before,
      text = before ++ t.toList ∧ byteLength t.toList = length := by
  obtain ⟨before, -, rfl⟩ := hs
  obtain ⟨t, ht, hlength, front, hfront⟩ := h.boundary_path hlone hb
  exact ⟨t, ht, before ++ pathText front, by rw [hfront]; simp, hlength⟩

/-- The end of a run stands where its opener and its end have been spelled. -/
theorem close_spells (h : Charted lexicon matchers a place) {c : Close}
    (hc : (a.behaviour n).action = .close c) (hs : (place n).Spells text) :
    ∃ b m nested t interior, place n = ⟨.body b m nested, spelling t.toList⟩ ∧
      c.Ends lexicon.labels b m nested t ∧
      text = m.startsWith.toList ++ interior ++ t.toList := by
  obtain ⟨b, m, nested, t, hp, hends⟩ := h.close_ends hc
  obtain ⟨before, hopens, rfl⟩ := hs
  rw [hp] at hopens ⊢
  obtain ⟨interior, rfl⟩ := hopens
  exact ⟨b, m, nested, t, interior, rfl, hends, by simp⟩

/-- A path goes on spelling. -/
theorem spells_follow? (h : Charted lexicon matchers a place) {path : List Symbol} {k : NodeId}
    (hp : a.trie.follow? n path = some k) (hs : (place n).Spells text) :
    (place k).Spells (text ++ pathText path) := by
  induction path generalizing n text with
  | nil =>
    cases hp
    rwa [pathText_nil, List.append_nil]
  | cons s path ih =>
    rw [Trie.follow?_cons] at hp
    obtain ⟨m, hm, hp⟩ := Option.bind_eq_some_iff.1 hp
    have hmove : (place m).Spells (text ++ s.text) := by
      rcases h.child hm with hd | ⟨-, -, hd⟩
      · exact hd ▸ hs.down s
      · exact hd ▸ Locus.spells_of_path_eq_nil rfl trivial
    have hrest := ih hp hmove
    rwa [List.append_assoc] at hrest

/-- A terminator that is taken again from the root leads to its mark. -/
theorem retake_terminator (h : Charted lexicon matchers a place) (hlone : lexicon.LonePoint)
    {t : String} (ht : t ∈ lexicon.terminators) :
    ∃ n, a.retake {} t.toList = .ok (⟨n, t.toList⟩, []) ∧ (place n).Spells t.toList ∧
      (a.behaviour n).action.EndsMark := by
  have hroot : (place .root).Spells [] := by
    rw [h.place_root]
    exact ⟨[], rfl, rfl⟩
  by_cases hne : t = ""
  · subst hne
    exact ⟨.root, rfl, hroot, .inl h.action_root⟩
  · obtain ⟨n, hn, hends⟩ := h.mark ht hne (hlone t ht)
    have hs := h.spells_follow? hn hroot
    rw [List.nil_append, pathText_map_char] at hs
    exact ⟨n, StateGraph.retake_of_follow? hn, hs, hends⟩

end Charted

/-! ### Runs -/

/-- A run is given out with the opener of its matcher and the end that it was ended by. -/
def Lexeme.Formed (lexicon : Lexicon) (place : NodeId → Locus) : Lexeme → Prop
  | .plain _ _ => True
  | .whole text close => ∃ m nested t interior, place close.body = ⟨.body close.body m nested, []⟩ ∧
      close.Ends lexicon.labels close.body m nested t ∧
      text = m.startsWith.toList ++ interior ++ t.toList
  | .nested opener _ terminator close _ => ∃ m nested t,
      place close.body = ⟨.body close.body m nested, []⟩ ∧
      close.Ends lexicon.labels close.body m nested t ∧
      opener = m.startsWith.toList ∧ terminator = t.toList

namespace Reading

variable {lexicon : Lexicon} {matchers : List (GreedyMatcher Compilation)} {a : Automaton}
  {place : NodeId → Locus} {inner : InnerScan} {r r' : Reading} {ls : List Lexeme}

/-- A scan between two symbols whose pending text is spelled. -/
structure Spelled (a : Automaton) (place : NodeId → Locus) (r : Reading) : Prop where
  spells : (place r.node).Spells r.pending
  rests : (a.behaviour r.node).action = .none

theorem spelled_root (h : Charted lexicon matchers a place) (run : Option (NestedScan Progress))
    (idle : Array (Option Progress)) : Reading.Spelled a place { run, idle } := by
  refine ⟨?_, h.action_root⟩
  rw [h.place_root]
  exact ⟨[], rfl, rfl⟩

theorem spelled_park (h : Charted lexicon matchers a place) (r : Reading) :
    r.park.Spelled a place := by
  rw [park]
  split <;> exact spelled_root h _ _

theorem Spelled.feed (hs : r.Spelled a place) (hf : r.feed inner = .ok r') :
    r'.Spelled a place := by
  have hc := feed_toCursor hf
  exact ⟨by rw [hc]; exact hs.spells, by rw [hc]; exact hs.rests⟩

/-- A run that ends goes on in its body or is given out with its opener and its end. -/
theorem Poised.formed_close {slack : Nat} (hr : r.Poised a place slack)
    (h : Charted lexicon matchers a place) (hspells : (place r.node).Spells r.pending) {c : Close}
    (hc : (a.behaviour r.node).action = .close c) (hs : r.close a inner c = .ok (r', ls)) :
    r'.Spelled a place ∧ ∀ l ∈ ls, l.Formed lexicon place := by
  obtain ⟨b, m, nested, t, interior, hp, hends, hpending⟩ := h.close_spells hc hspells
  obtain rfl := hends.body
  have hb := (h.body hp).1
  rcases close_cases hs with ⟨-, rfl, rfl⟩ | ⟨-, -, rfl, rfl⟩ |
    ⟨-, id, run, idle, hid, hcurrent, hgive⟩
  · refine ⟨⟨?_, h.action_eq_none (by rw [hb]) (by rw [hb]; simp)⟩, List.forall_mem_nil _⟩
    change (place c.body).Spells r.pending
    rw [hb, hpending, List.append_assoc]
    exact Locus.spells_of_path_eq_nil rfl (List.prefix_append ..)
  · exact ⟨spelled_root h _ _,
      List.forall_mem_singleton.2 ⟨m, nested, t, interior, hb, hends, hpending⟩⟩
  · have hint := (hr.current h hc hid hcurrent).1
    obtain ⟨opener, interior', terminator, tokens, idle', hcut, hopener, hterminator, rfl, rfl⟩ :=
      exists_of_giveOut hgive
    obtain ⟨hstart, -, hend⟩ := Text.append_append_inj_of_byteLength (hpending.symm.trans hcut)
      (hends.openerLength.symm.trans (hint.symm.trans hopener.symm))
      (hends.terminatorLength.symm.trans hterminator.symm)
    exact ⟨spelled_root h _ _,
      List.forall_mem_singleton.2 ⟨m, nested, t, hb, hends, hstart.symm, hend.symm⟩⟩

theorem Poised.formed_settle {slack : Nat} (hr : r.Poised a place slack)
    (h : Charted lexicon matchers a place) (hspells : (place r.node).Spells r.pending)
    (hends : ∀ label length, (a.behaviour r.node).action ≠ .boundary label length)
    (hs : r.settle a inner = .ok (r', ls)) :
    r'.Spelled a place ∧ ∀ l ∈ ls, l.Formed lexicon place := by
  rw [Reading.settle] at hs
  split at hs
  · next hc =>
    cases hs
    exact ⟨⟨hspells, hc⟩, List.forall_mem_nil _⟩
  · next hc => exact absurd hc (hends _ _)
  · cases hs
    exact ⟨spelled_root h _ _, List.forall_mem_singleton.2 trivial⟩
  · next hc => exact hr.formed_close h hspells hc hs

theorem Poised.formed_act {slack : Nat} (hr : r.Poised a place slack)
    (h : Charted lexicon matchers a place) (hlone : lexicon.LonePoint)
    (hspells : (place r.node).Spells r.pending) (hs : r.act a inner = .ok (r', ls)) :
    r'.Spelled a place ∧ ∀ l ∈ ls, l.Formed lexicon place := by
  rw [Reading.act] at hs
  split at hs
  · next hb =>
    obtain ⟨t, ht, before, hpending, hlength⟩ := h.boundary_spells hlone hb hspells
    obtain ⟨n, hretake, hn, hends⟩ := h.retake_terminator hlone ht
    rw [cutBack_eq_ok.2 ⟨hpending, hlength⟩, ok_bind] at hs
    obtain ⟨⟨c, released⟩, hm, hs⟩ := bind_eq_ok.1 hs
    cases hretake.symm.trans hm
    obtain ⟨⟨r₁, out⟩, hsettle, hs⟩ := bind_eq_ok.1 hs
    cases hs
    obtain ⟨hs₁, hout⟩ := (hr.retake h hb hretake).formed_settle h hn (by
      intro label length heq
      rcases hends with hnone | ⟨label, hliteral⟩
      · cases hnone.symm.trans heq
      · cases hliteral.symm.trans heq) hsettle
    exact ⟨hs₁, List.forall_mem_cons.2 ⟨trivial, hout⟩⟩
  · next hb => exact hr.formed_settle h hspells hb hs

/-- When the walk has landed, the pending text is spelled. -/
theorem Spelled.enter (hs : r.Spelled a place) (h : Charted lexicon matchers a place) {s : Symbol}
    {c : Cursor} (hm : a.move r.toCursor s = .ok (c, ls))
    (he : Reading.enter a { r with toCursor := c } = .ok r') :
    (place r'.node).Spells r'.pending := by
  rw [enter_toCursor he]
  exact h.spells_move hs.spells hs.rests hm

theorem Spelled.advance (hs : r.Spelled a place) (hr : r.Sound a place 0)
    (h : Charted lexicon matchers a place) (hlone : lexicon.LonePoint) {s : Symbol}
    (ha : r.advance a inner s = .ok (r', ls)) :
    r'.Spelled a place ∧ ∀ l ∈ ls, l.Formed lexicon place := by
  obtain ⟨⟨c, released⟩, hm, ha⟩ := bind_eq_ok.1 ha
  obtain ⟨r₁, he, ha⟩ := bind_eq_ok.1 ha
  obtain ⟨⟨r₂, out⟩, hact, ha⟩ := bind_eq_ok.1 ha
  obtain ⟨r₃, hfeed, ha⟩ := bind_eq_ok.1 ha
  cases ha
  obtain ⟨hs₂, hout⟩ := (hr.enter h hm he).formed_act h hlone (hs.enter h hm he) hact
  exact ⟨hs₂.feed hfeed, List.forall_mem_append.2
    ⟨StateGraph.forall_of_move (fun _ _ _ _ => trivial) hm, hout⟩⟩

theorem Spelled.read (hs : r.Spelled a place) (hr : r.Sound a place 0)
    (h : Charted lexicon matchers a place) (hlone : lexicon.LonePoint) {text : List Char}
    (hread : r.read a inner text = .ok (r', ls)) :
    r'.Spelled a place ∧ ∀ l ∈ ls, l.Formed lexicon place := by
  induction text generalizing r ls with
  | nil =>
    cases hread
    exact ⟨hs, List.forall_mem_nil _⟩
  | cons c text ih =>
    obtain ⟨⟨r₁, out⟩, ha, hread⟩ := bind_eq_ok.1 hread
    obtain ⟨⟨r₂, outs⟩, hread', hread⟩ := bind_eq_ok.1 hread
    cases hread
    obtain ⟨hs₁, hout⟩ := hs.advance hr h hlone ha
    obtain ⟨hs₂, houts⟩ := ih hs₁ (hr.advance h ha) hread'
    exact ⟨hs₂, List.forall_mem_append.2 ⟨hout, houts⟩⟩

/-- Scans stay spelled, and the runs that they give out are formed. -/
theorem Spelled.take (hs : r.Spelled a place) (hr : r.Sound a place 0)
    (h : Charted lexicon matchers a place) (hlone : lexicon.LonePoint) {input : Input}
    (ht : r.take a inner input = .ok (r', ls)) :
    r'.Spelled a place ∧ ∀ l ∈ ls, l.Formed lexicon place := by
  cases input with
  | chunk text => exact hs.read hr h hlone ht
  | done =>
    obtain ⟨⟨r₁, out⟩, ha, ht⟩ := bind_eq_ok.1 ht
    cases ht
    obtain ⟨-, hout⟩ := hs.advance hr h hlone ha
    exact ⟨spelled_park h _, List.forall_mem_append.2 ⟨hout, List.forall_mem_singleton.2 trivial⟩⟩

end Reading

end TrieLexer
