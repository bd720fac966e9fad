import TrieLexer.Proofs.Forgetting
import TrieLexer.Proofs.Lines
import TrieLexer.Proofs.Resumption
import TrieLexer.Proofs.Sources

/-!
# Reports of unterminated runs

A run is closed by its terminator, by its halt marker or by the end of input, and in the last two
cases its tokens carry the mark of unterminated runs. The command that reports unterminated runs
looks for these tokens. A run without a grammar of its own is one token, and a nested run that the
end of input closes has one as well, its opener; but a nested run that is closed by its halt marker
has two, since the marker is a token of its own. So such a run is reported and counted twice, and
every other one once, at its opener.

## Main definitions

* `Closing` — a run that has been closed.
* `Automaton.closings` — the runs that are closed in an input, those of interiors included.
* `Grammar.Marks` — the mark of unterminated runs is the same in the interiors, and no other label
  begins with it.

## Main results

* `Lexeme.Sized` — a run has an opener, and a nested run ends with all of its end.
* `Grammar.reports_tokenize` — the tokens that carry the mark are those of the runs that are halted.
* `CommandLine.check_halted` — what the command reports.
* `CommandLine.check_twice` — a run that is reported twice.
-/

namespace TrieLexer

open Text (byteLength)

/-! ### Sizes -/

/-- A run is as long as its opener and its end at least, and a nested run has all of both. -/
inductive Lexeme.Sized : Lexeme → Prop
  | plain {text : List Char} {label : Option Label} : Sized (.plain text label)
  | whole {text : List Char} {c : Close}
      (h : c.openerLength + c.terminatorLength ≤ byteLength text) : Sized (.whole text c)
  | nested {opener interior terminator : List Char} {c : Close} {tokens : List Token}
      (ho : byteLength opener = c.openerLength) (ht : byteLength terminator = c.terminatorLength) :
      Sized (.nested opener interior terminator c tokens)

namespace Reading

variable {lexicon : Lexicon} {matchers : List (GreedyMatcher Compilation)} {a : Automaton}
  {place : NodeId → Locus} {inner : InnerScan} {r r' : Reading} {ls : List Lexeme} {slack : Nat}

theorem Poised.sized_close (hr : r.Poised a place slack) (h : Charted lexicon matchers a place)
    {c : Close} (hc : (a.behaviour r.node).action = .close c)
    (hs : r.close a inner c = .ok (r', ls)) : ∀ l ∈ ls, l.Sized := by
  rcases close_cases hs with ⟨-, -, rfl⟩ | ⟨-, -, -, rfl⟩ |
    ⟨-, id, run, idle, hid, hcurrent, hgive⟩
  · exact List.forall_mem_nil _
  · exact List.forall_mem_singleton.2 (.whole (hr.close_le h hc))
  · obtain ⟨_, _, _, _, _, -, hopener, hterminator, -, rfl⟩ := exists_of_giveOut hgive
    exact List.forall_mem_singleton.2
      (.nested (hopener.trans (hr.current h hc hid hcurrent).1) hterminator)

theorem Poised.sized_settle (hr : r.Poised a place slack) (h : Charted lexicon matchers a place)
    (hs : r.settle a inner = .ok (r', ls)) : ∀ l ∈ ls, l.Sized := by
  rw [Reading.settle] at hs
  split at hs
  · cases hs
    exact List.forall_mem_nil _
  · cases hs
    exact List.forall_mem_nil _
  · cases hs
    exact List.forall_mem_singleton.2 .plain
  · next hc => exact hr.sized_close h hc hs

theorem Poised.sized_act (hr : r.Poised a place slack) (h : Charted lexicon matchers a place)
    (hs : r.act a inner = .ok (r', ls)) : ∀ l ∈ ls, l.Sized := by
  rw [Reading.act] at hs
  split at hs
  · next hb =>
    obtain ⟨_, -, hs⟩ := bind_eq_ok.1 hs
    obtain ⟨⟨c, released⟩, hm, hs⟩ := bind_eq_ok.1 hs
    obtain ⟨⟨r₁, out⟩, hsettle, hs⟩ := bind_eq_ok.1 hs
    cases hs
    exact List.forall_mem_cons.2 ⟨.plain, List.forall_mem_append.2
      ⟨StateGraph.forall_of_retake (fun _ _ _ _ => .plain) hm,
        (hr.retake h hb hm).sized_settle h hsettle⟩⟩
  · exact hr.sized_settle h hs

/-- A symbol gives out runs of their size. -/
theorem Sound.sized_advance (hr : r.Sound a place 0) (h : Charted lexicon matchers a place)
    {s : Symbol} (ha : r.advance a inner s = .ok (r', ls)) : ∀ l ∈ ls, l.Sized := by
  obtain ⟨⟨c, released⟩, hm, ha⟩ := bind_eq_ok.1 ha
  obtain ⟨r₁, he, ha⟩ := bind_eq_ok.1 ha
  obtain ⟨⟨r₂, out⟩, hact, ha⟩ := bind_eq_ok.1 ha
  obtain ⟨r₃, hfeed, ha⟩ := bind_eq_ok.1 ha
  cases ha
  exact List.forall_mem_append.2 ⟨StateGraph.forall_of_move (fun _ _ _ _ => .plain) hm,
    (hr.enter h hm he).sized_act h hact⟩

theorem Sound.sized_read (hr : r.Sound a place 0) (h : Charted lexicon matchers a place)
    {text : List Char} (hread : r.read a inner text = .ok (r', ls)) : ∀ l ∈ ls, l.Sized := by
  induction text generalizing r ls with
  | nil =>
    cases hread
    exact List.forall_mem_nil _
  | cons c text ih =>
    obtain ⟨⟨r₁, out⟩, ha, hread⟩ := bind_eq_ok.1 hread
    obtain ⟨⟨r₂, outs⟩, hread', hread⟩ := bind_eq_ok.1 hread
    cases hread
    exact List.forall_mem_append.2 ⟨hr.sized_advance h ha, ih (hr.advance h ha) hread'⟩

end Reading

/-- A whole input gives out runs of their size. -/
theorem Charted.sized_lexemes {lexicon : Lexicon} {matchers : List (GreedyMatcher Compilation)}
    {a : Automaton} {place : NodeId → Locus} (h : Charted lexicon matchers a place) {x : String}
    {ls : List Lexeme} (hx : a.lexemes x = .ok ls) : ∀ l ∈ ls, l.Sized := by
  obtain ⟨r₁, ls₁, r₂, ls₂, hread, ha, rfl⟩ := Automaton.exists_of_lexemes hx
  have hr := Reading.sound_root h 0 (Array.replicate a.runs.length none)
  exact List.forall_mem_append.2 ⟨hr.sized_read h hread, List.forall_mem_append.2
    ⟨(hr.read h hread).sized_advance h ha, List.forall_mem_singleton.2 .plain⟩⟩

/-! ### Closed runs -/

/-- A greedy run that has been closed. -/
structure Closing where
  /-- The offset of the opener. -/
  position : Nat
  /-- The offset of what closed the run. -/
  ending : Nat
  close : Close
deriving DecidableEq, Repr

/-- The run further on in the input. -/
def Closing.shifted (c : Closing) (offset : Nat) : Closing :=
  { c with position := c.position + offset, ending := c.ending + offset }

/-- The runs that a lexeme at a position closes: it may be a run itself, and there may be runs in
its interior. -/
def Lexeme.closings (inner : RunId → String → List Closing) (position : Nat) :
    Lexeme → List Closing
  | plain _ _ => []
  | whole text c => [⟨position, position + byteLength text - c.terminatorLength, c⟩]
  | nested opener interior _ c _ =>
    ⟨position, position + byteLength (opener ++ interior), c⟩ ::
      (c.nested.elim [] fun id => inner id (String.ofList interior)).map
        (·.shifted (position + byteLength opener))

/-- The runs that lexemes close which follow each other from a position on. -/
def closingsOf (inner : RunId → String → List Closing) (position : Nat) :
    List Lexeme → List Closing
  | [] => []
  | l :: ls => l.closings inner position ++ closingsOf inner (position + byteLength l.text) ls

mutual

/-- The runs that are closed in an input, those of interiors included. -/
def Automaton.closings : Automaton → String → List Closing
  | ⟨graph, runs⟩ => fun x =>
    closingsOf (closingsAt runs) 0 ((Automaton.lexemes ⟨graph, runs⟩ x).toOption.getD [])

/-- The runs that are closed in an interior of a run in a list. -/
def closingsAt : List (NestedRun Automaton) → RunId → String → List Closing
  | [], _ => fun _ => []
  | run :: _, 0 => closingsIn run
  | _ :: runs, id + 1 => closingsAt runs id

/-- The runs that are closed in an interior of a run. -/
def closingsIn : NestedRun Automaton → String → List Closing
  | ⟨automaton, _, _⟩ => automaton.closings

end

theorem closingsAt_eq {runs : List (NestedRun Automaton)} {id : RunId} {spec : NestedRun Automaton}
    (h : runs[id]? = some spec) : closingsAt runs id = spec.automaton.closings := by
  induction runs generalizing id with
  | nil => cases h
  | cons run runs ih =>
    cases id with
    | zero =>
      cases h
      obtain ⟨automaton, openerLength, hold⟩ := spec
      rw [closingsAt, closingsIn]
    | succ id =>
      rw [closingsAt]
      exact ih h

theorem Automaton.closings_eq {a : Automaton} {x : String} {ls : List Lexeme}
    (h : a.lexemes x = .ok ls) : a.closings x = closingsOf (closingsAt a.runs) 0 ls := by
  obtain ⟨graph, runs⟩ := a
  rw [closings]
  exact congrArg (fun x => closingsOf (closingsAt runs) 0 (x.toOption.getD [])) h

/-! ### Reports -/

/-- Where a run that is halted is reported, and under which label: at its opener, and a nested run
also at its halt marker. -/
def Closing.reports (c : Closing) : List (Nat × Label) :=
  (c.position, c.close.label) ::
    if c.close.nested ≠ none ∧ c.close.terminatorLength ≠ 0 then [(c.ending, c.close.label)] else []

/-- A run that is no nested one closed by its halt marker is reported at its opener only. -/
theorem Closing.reports_of_once {c : Closing}
    (h : c.close.nested = none ∨ c.close.terminatorLength = 0) :
    c.reports = [(c.position, c.close.label)] := by
  rw [reports, if_neg fun hboth => h.elim hboth.1 hboth.2]

/-- The tokens that carry the mark of unterminated runs are those that report the runs. -/
def Reports (mark : String) (tokens : List Token) (closings : List Closing) : Prop :=
  ((tokens.filter (·.isHalted mark)).map fun t => (t.position, t.kind)).Perm
    ((closings.filter (·.close.halted)).flatMap Closing.reports)

namespace Reports

variable {mark : String} {tokens tokens' : List Token} {closings closings' : List Closing}

theorem nil (mark : String) : Reports mark [] [] := List.Perm.nil

theorem append (h : Reports mark tokens closings) (h' : Reports mark tokens' closings') :
    Reports mark (tokens ++ tokens') (closings ++ closings') := by
  rw [Reports, List.filter_append, List.map_append, List.filter_append, List.flatMap_append]
  exact List.Perm.append h h'

theorem shifted (h : Reports mark tokens closings) (offset : Nat) :
    Reports mark (tokens.map (·.shifted offset)) (closings.map (·.shifted offset)) := by
  have hmap := List.Perm.map (fun x : Nat × Label => (x.1 + offset, x.2)) h
  have htokens : (tokens.map (·.shifted offset)).filter (·.isHalted mark) =
      (tokens.filter (·.isHalted mark)).map (·.shifted offset) := by
    rw [List.filter_map]
    rfl
  have hclosings : (closings.map (·.shifted offset)).filter (·.close.halted) =
      (closings.filter (·.close.halted)).map (·.shifted offset) := by
    rw [List.filter_map]
    rfl
  have hreports (c : Closing) : (c.shifted offset).reports =
      c.reports.map fun x => (x.1 + offset, x.2) := by
    rw [Closing.reports, Closing.reports]
    change (_ :: if c.close.nested ≠ none ∧ c.close.terminatorLength ≠ 0 then _ else _) = _
    split <;> rfl
  rw [Reports, htokens, hclosings, List.flatMap_map, List.map_map]
  simp only [hreports]
  rwa [List.map_map, List.map_flatMap] at hmap

end Reports

theorem Token.isHalted_iff {t : Token} {mark : String} (hne : mark ≠ "") :
    t.isHalted mark = true ↔ mark.toList <+: t.kind.toList := by
  rw [isHalted, Bool.and_eq_true, List.isPrefixOf_iff_prefix]
  simp [hne]

section

variable {mark : String} (hne : mark ≠ "") {position : Nat} {text : List Char} {kind : Label}

include hne

theorem filter_tokenAt_of_marked (h : mark.toList <+: kind.toList) (htext : text ≠ []) :
    (tokenAt position text (some kind)).filter (·.isHalted mark) =
      [⟨String.ofList text, kind, position⟩] := by
  rw [tokenAt, if_neg (by simpa using htext)]
  exact List.filter_cons_of_pos ((Token.isHalted_iff hne).2 h)

theorem filter_tokenAt_of_unmarked (h : ¬mark.toList <+: kind.toList) :
    (tokenAt position text (some kind)).filter (·.isHalted mark) = [] := by
  rw [tokenAt]
  split
  · rfl
  · exact List.filter_cons_of_neg fun hhalted => h ((Token.isHalted_iff hne).1 hhalted)

end

namespace Lexeme

variable {mark : String} (hne : mark ≠ "") {inner : RunId → String → List Closing} {position : Nat}
  {opener interior terminator text : List Char} {c : Close} {tokens : List Token}
  (hhalted : mark.toList <+: c.label.toList ↔ c.halted = true)

include hne

theorem reports_plain {label : Option Label}
    (h : ∀ kind, label = some kind → ¬mark.toList <+: kind.toList) :
    Reports mark ((plain text label).tokens position)
      ((plain text label).closings inner position) := by
  rw [Lexeme.tokens, closings]
  cases label with
  | none => exact .nil mark
  | some kind =>
    rw [Reports, filter_tokenAt_of_unmarked hne (h kind rfl)]
    exact List.Perm.nil

include hhalted

/-- A run without a nested one is one token. -/
theorem reports_whole (htext : text ≠ []) (hnone : c.nested = none) :
    Reports mark ((whole text c).tokens position) ((whole text c).closings inner position) := by
  rw [Lexeme.tokens, closings, Reports]
  cases hc : c.halted with
  | false =>
    rw [filter_tokenAt_of_unmarked hne (by simp [hhalted, hc]),
      List.filter_cons_of_neg (by simp [hc])]
    exact List.Perm.nil
  | true =>
    rw [filter_tokenAt_of_marked hne (hhalted.2 hc) htext]
    simp [Closing.reports, hc, hnone]

/-- A nested run is its opener, the tokens of its interior and its end, if that is a text. -/
theorem reports_nested (hopener : opener ≠ [])
    (hterminator : byteLength terminator = c.terminatorLength) {id : RunId}
    (hid : c.nested = some id) (hinner : Reports mark tokens (inner id (String.ofList interior))) :
    Reports mark ((nested opener interior terminator c tokens).tokens position)
      ((nested opener interior terminator c tokens).closings inner position) := by
  rw [Lexeme.tokens, closings, hid, Option.elim_some]
  have hinterior := hinner.shifted (position + byteLength opener)
  rw [Reports] at hinterior ⊢
  rw [List.filter_append, List.filter_append, List.map_append, List.map_append, List.filter_cons]
  cases hc : c.halted with
  | false =>
    have hlabel : ¬mark.toList <+: c.label.toList := by simp [hhalted, hc]
    rw [filter_tokenAt_of_unmarked hne hlabel, filter_tokenAt_of_unmarked hne hlabel,
      if_neg Bool.false_ne_true]
    simpa using hinterior
  | true =>
    have hlabel : mark.toList <+: c.label.toList := hhalted.2 hc
    rw [filter_tokenAt_of_marked hne hlabel hopener, if_pos rfl, List.flatMap_cons, Closing.reports]
    refine List.Perm.cons _ ((List.perm_append_comm).trans (List.Perm.append ?_ hinterior))
    by_cases hempty : terminator = []
    · rw [hempty, if_neg fun hboth => hboth.2 (by rw [← hterminator, hempty]; rfl)]
      exact List.Perm.nil
    · rw [filter_tokenAt_of_marked hne hlabel hempty, if_pos ⟨by simp [hid], fun hzero =>
        hempty (Text.byteLength_eq_zero_iff.1 (hterminator.trans hzero))⟩]
      exact List.Perm.refl _

end Lexeme

/-- Lexemes that follow each other are reported one by one. -/
theorem reports_listing {mark : String} {inner : RunId → String → List Closing} {ls : List Lexeme}
    (h : ∀ l ∈ ls, ∀ position, Reports mark (l.tokens position) (l.closings inner position))
    (position : Nat) : Reports mark (listing position ls) (closingsOf inner position ls) := by
  induction ls generalizing position with
  | nil => exact .nil mark
  | cons l ls ih =>
    obtain ⟨hl, hls⟩ := List.forall_mem_cons.1 h
    exact (hl position).append (ih hls _)

/-! ### Grammars -/

/-- The mark of unterminated runs is the same in the interiors, and no label begins with it but
those of unterminated runs. -/
inductive Grammar.Marks (mark : String) : Grammar → Prop
  | mk {g : Grammar} (hmark : g.labels.haltedMark = mark)
      (hother : ∀ group, group ≠ .halted → ∀ label ∈ g.labelsOf group,
        ¬mark.toList <+: label.toList)
      (hm : ∀ m ∈ g.greedyMatchers, ∀ s, m.subGrammar = some s → s.Marks mark) : g.Marks mark

/-- The labels of a grammar fit the mark, those of its interiors apart. -/
def Grammar.marksAlone (g : Grammar) (mark : String) : Bool :=
  g.labels.haltedMark == mark &&
    [LabelGroup.keyword, .punctuation, .delimiter, .run, .category].all fun group =>
      (g.labelsOf group).all fun label => !mark.toList.isPrefixOf label.toList

theorem Grammar.Marks.of_alone {g : Grammar} {mark : String} (h : g.marksAlone mark = true)
    (hm : ∀ m ∈ g.greedyMatchers, ∀ s, m.subGrammar = some s → s.Marks mark) : g.Marks mark := by
  rw [marksAlone, Bool.and_eq_true, beq_iff_eq, List.all_eq_true] at h
  refine .mk h.1 (fun group hgroup label hlabel hprefix => ?_) hm
  have hall := List.all_eq_true.1 (h.2 group (by cases group <;> simp at hgroup ⊢)) label hlabel
  rw [List.isPrefixOf_iff_prefix.2 hprefix] at hall
  cases hall

/-- A run that a node closes has an opener. -/
theorem Charted.openerLength_pos {g : Grammar} {a : Automaton} {place : NodeId → Locus}
    (h : Charted g.toLexicon (compileMatchers g.greedyMatchers) a place)
    (hg : g.compile.result = .ok a) {n : NodeId} {c : Close}
    (hc : (a.behaviour n).action = .close c) : 0 < c.openerLength := by
  obtain ⟨b, m, nested, t, hp, hends⟩ := h.close_ends hc
  have hopener := (g.proper_compile hg).opener (h.body hp).2.2.1
  rw [hends.openerLength]
  exact Text.byteLength_pos_iff.2 fun hnil => hopener (String.toList_eq_nil_iff.1 hnil)

/-- The label of a run begins with the mark if the run is halted, and only then. -/
theorem Grammar.Marks.halted_iff {g : Grammar} {mark : String} (hmarks : g.Marks mark)
    {a : Automaton} {place : NodeId → Locus}
    (h : Charted g.toLexicon (compileMatchers g.greedyMatchers) a place)
    (ht : Titled g.toLexicon (compileMatchers g.greedyMatchers) a.behaviour place) {n : NodeId}
    {c : Close} (hc : (a.behaviour n).action = .close c) :
    mark.toList <+: c.label.toList ↔ c.halted = true := by
  obtain ⟨hmark, hother, -⟩ := hmarks
  rcases ht.ends_of_close h hc with ⟨hhalted, hlabel⟩ | ⟨hhalted, m, -, hlabel, -⟩
  · simp [hhalted, hother .run nofun _ hlabel]
  · simp [hhalted, hlabel, Labels.halted, hmark]

/-- A lexeme is reported if it is a run that is halted, and its interior is reported. -/
theorem Grammar.Marks.reports_lexeme {g : Grammar} {mark : String} (hmarks : g.Marks mark)
    (hne : mark ≠ "") {a : Automaton} (h : g.compile.result = .ok a) {place : NodeId → Locus}
    (hchart : Charted g.toLexicon (compileMatchers g.greedyMatchers) a place)
    (htitled : Titled g.toLexicon (compileMatchers g.greedyMatchers) a.behaviour place)
    (hunnamed : a.unnamed = g.unnamedLabel) {landed : Cursor} {l : Lexeme}
    (hgives : a.Gives landed l) (hsized : l.Sized) {inner : RunId → String → List Closing}
    (hinner : ∀ opener interior terminator c tokens,
      l = .nested opener interior terminator c tokens →
        ∃ id, c.nested = some id ∧ Reports mark tokens (inner id (String.ofList interior)))
    (position : Nat) : Reports mark (l.tokens position) (l.closings inner position) := by
  cases l with
  | plain text label =>
    refine Lexeme.reports_plain hne fun kind hkind => ?_
    obtain ⟨group, -, hgroup, hlabel⟩ := hgives.exists_group htitled hunnamed hkind
    obtain ⟨-, hother, -⟩ := hmarks
    exact hother group hgroup kind hlabel
  | whole text c =>
    cases hgives with
    | whole hc hnone =>
      cases hsized with
      | whole hle =>
        refine Lexeme.reports_whole hne (hmarks.halted_iff hchart htitled hc) ?_ hnone
        rintro rfl
        have hpos := hchart.openerLength_pos h hc
        rw [Text.byteLength_nil] at hle
        omega
  | nested opener interior terminator c tokens =>
    cases hgives with
    | nested hc =>
      cases hsized with
      | nested hopener hterminator =>
        obtain ⟨id, hid, hreports⟩ := hinner _ _ _ _ _ rfl
        refine Lexeme.reports_nested hne (hmarks.halted_iff hchart htitled hc) ?_ hterminator hid
          hreports
        rintro rfl
        have hpos := hchart.openerLength_pos h hc
        rw [Text.byteLength_nil] at hopener
        omega

/-- The tokens that carry the mark are those of the runs that are halted. -/
theorem Grammar.reports_tokenize {mark : String} (hne : mark ≠ "") (g : Grammar)
    (hmarks : g.Marks mark) {a : Automaton} (h : g.compile.result = .ok a) {x : String}
    {tokens : List Token} (hx : a.tokenize x = .ok tokens) :
    Reports mark tokens (a.closings x) := by
  induction g using Grammar.induct generalizing a x tokens with
  | step g ih =>
    obtain ⟨hunnamed, place, hchart, htitled⟩ := titled_compile h
    have hlawful : Lawful False a := g.lawful_compile False.elim h
    obtain ⟨ls, hls, rfl⟩ := hchart.exists_lexemes hx
    obtain ⟨-, hscanned⟩ := hchart.scanned_lexemes (fun _ _ => hlawful.takes) hls
    have hinterior : ∀ opener interior terminator c tokens,
        .nested opener interior terminator c tokens ∈ ls → ∃ id, c.nested = some id ∧
          Reports mark tokens (closingsAt a.runs id (String.ofList interior)) := by
      intro opener interior terminator c tokens hl
      obtain ⟨id, spec, hid, hspec, htokens⟩ := Lexeme.Scanned.tokenize hlawful (hscanned _ hl)
      obtain ⟨m, hm, s, hs, hinner⟩ := hchart.exists_of_mem (List.mem_of_getElem? hspec)
      obtain ⟨-, -, hinteriors⟩ := hmarks
      refine ⟨id, hid, ?_⟩
      rw [closingsAt_eq hspec]
      exact ih m hm s hs (hinteriors m hm s hs) hinner htokens
    have hlexeme : ∀ l ∈ ls, ∀ position,
        Reports mark (l.tokens position) (l.closings (closingsAt a.runs) position) := by
      intro l hl position
      rcases Automaton.lexemes_gives hls l hl with ⟨landed, hgives⟩ | ⟨text, rfl⟩
      · exact hmarks.reports_lexeme hne h hchart htitled hunnamed hgives
          (hchart.sized_lexemes hls l hl)
          (fun _ _ _ _ _ hnested => hinterior _ _ _ _ _ (hnested ▸ hl)) position
      · exact Lexeme.reports_plain hne nofun
    rw [Automaton.closings_eq hls]
    exact reports_listing hlexeme 0

theorem Automaton.haltedMark_compile {g : Grammar} {a : Automaton}
    (h : g.compile.result = .ok a) : a.haltedMark = g.labels.haltedMark := by
  obtain ⟨d, -, rfl⟩ := Lexicon.stages_assemble (Grammar.assemble_of_compile h)
  rfl

namespace CommandLine

/-- The line for a run at a place where it is reported. -/
def closingLine (path text mark : String) (x : Nat × Label) : String :=
  haltedLine path text mark ⟨"", x.2, x.1⟩

/-- The report, by the lines for the tokens that carry the mark. -/
theorem report_eq (path text mark : String) (tokens : List Token) :
    report path text mark tokens =
      let lines := ((tokens.filter (·.isHalted mark)).map fun t => (t.position, t.kind)).map
        (closingLine path text mark)
      if lines = [] then { out := unlines [path ++ ": ok"] }
      else { code := 1, err := unlines <| lines ++
        ["", toString lines.length ++ " unterminated run(s) in '" ++ path ++ "'"] } := by
  rw [report]
  split
  · next hnil =>
    rw [hnil]
    rfl
  · next hne =>
    rw [List.map_map]
    dsimp only
    rw [if_neg (by simpa using hne), List.length_map]
    rfl

/-- What is reported of a file: a line for every run that is halted, at its opener, and a second one
at the halt marker for nested runs that are closed by one. The lines are counted, and the exit
status tells whether there are any. So if no nested run is closed by a halt marker, every run that
is halted is reported once. -/
theorem check_halted {files : FileSystem} {arguments : List String} {options : Options}
    (hparse : Options.parse arguments = .ok options) {a : Automaton}
    (hload : loadAutomaton files options.grammar = .ok a) {text : String}
    (htext : readText files options.path = .ok text) {g : Grammar} (hg : g.compile.result = .ok a)
    (hscan : g.LonePoint ∨ ∃ tokens, a.tokenize text = .ok tokens) {mark : String}
    (hne : mark ≠ "") (hmarks : g.Marks mark) :
    let halted := (a.closings text).filter (·.close.halted)
    ∃ lines : List String,
      lines.Perm (halted.flatMap fun c => c.reports.map (closingLine options.path text mark)) ∧
      ((∀ c ∈ halted, c.close.nested = none ∨ c.close.terminatorLength = 0) →
        lines.Perm (halted.map fun c =>
          closingLine options.path text mark (c.position, c.close.label))) ∧
      (∀ c ∈ halted, placeAt? text c.position ≠ none) ∧
      run files ("check" :: arguments) =
        if halted = [] then { out := unlines [options.path ++ ": ok"] }
        else { code := 1, err := unlines <| lines ++
          ["", toString lines.length ++ " unterminated run(s) in '" ++ options.path ++ "'"] } := by
  intro halted
  obtain ⟨tokens, htokens⟩ : ∃ tokens, a.tokenize text = .ok tokens :=
    hscan.elim (fun hlone => (g.lawful_compile (fun _ => hlone) hg).exists_tokenize text) id
  have hreports : List.Perm _ (halted.flatMap Closing.reports) :=
    g.reports_tokenize hne hmarks hg htokens
  have hlines := hreports.map (closingLine options.path text mark)
  rw [List.map_flatMap] at hlines
  refine ⟨_, hlines, fun honce => ?_, fun c hc => ?_, ?_⟩
  · refine hlines.trans (List.Perm.of_eq ?_)
    rw [List.map_eq_flatMap]
    refine List.flatMap_congr fun c hc => ?_
    rw [Closing.reports_of_once (honce c hc)]
    rfl
  · obtain ⟨t, ht, htc⟩ := List.mem_map.1 (hreports.mem_iff.2 (List.mem_flatMap.2
      ⟨c, hc, List.mem_cons_self⟩))
    obtain ⟨-, before, after, hsplit, hposition⟩ :=
      ((g.lawful_compile False.elim hg).cut_tokenize htokens).mem (List.mem_filter.1 ht).1
    rw [placeAt?, ← (Prod.mk.inj htc).1, hposition, Nat.zero_add, hsplit, List.append_assoc,
      Text.splitBytes?_eq_some_iff.2 ⟨rfl, rfl⟩]
    exact Option.some_ne_none _
  · have hnil : ((tokens.filter (·.isHalted mark)).map fun t => (t.position, t.kind)).map
        (closingLine options.path text mark) = [] ↔ halted = [] := by
      rw [List.map_eq_nil_iff]
      refine ⟨fun hnone => List.eq_nil_iff_forall_not_mem.2 fun c hc => ?_, fun hnone => ?_⟩
      · rw [hnone] at hreports
        exact absurd (hreports.mem_iff.2 (List.mem_flatMap.2 ⟨c, hc, List.mem_cons_self⟩))
          List.not_mem_nil
      · rw [hnone] at hreports
        exact hreports.eq_nil
    change runWith "check" arguments (check files) = _
    rw [runWith, hparse]
    dsimp only
    rw [check, hload]
    dsimp only
    rw [htext]
    dsimp only
    rw [htokens]
    obtain ⟨hmark, -, -⟩ := hmarks
    simp only [report_eq, Automaton.haltedMark_compile hg, hmark, hnil]

/-- A grammar for nested runs that end with their line, and a file with such a run. -/
def lined : FileSystem := fun path => .ok <| Text.encode <| String.toList <|
  if path = "lined.json" then
    "\x7b\"greedy_matchers\":[\x7b\"type\":\"B\",\"starts_with\":\"<\",\"ends_with\":\">\"," ++
      "\"halts_with\":\"\\n\",\"sub_grammar\":\x7b\x7d\x7d]\x7d"
  else "<a\n"

/-- The grammar in the file has one mark for all its runs, and closes one run in the other file. -/
theorem exists_lined : ∃ (g : Grammar) (a : Automaton) (tokens : List Token) (c : Closing),
    loadAutomaton lined (.file "lined.json") = .ok a ∧ g.compile.result = .ok a ∧
    g.Marks "HALTED_" ∧ a.tokenize "<a\n" = .ok tokens ∧
    (a.closings "<a\n").filter (·.close.halted) = [c] ∧
    c.reports = [(0, "HALTED_B"), (2, "HALTED_B")] := by
  obtain ⟨text, htext, h⟩ := Option.bind_eq_some_iff.1
    (by decide +kernel : ((readText lined "lined.json").toOption.bind fun text =>
      (Grammar.ofText? text).toOption.bind fun g => g.compile.result.toOption.bind fun a =>
        (a.tokenize "<a\n").toOption.map fun _ =>
          (g.marksAlone "HALTED_" && g.greedyMatchers.all fun m => m.subGrammar.all fun s =>
              s.marksAlone "HALTED_" && s.greedyMatchers.isEmpty,
            ((a.closings "<a\n").filter (·.close.halted)).map (·.reports))) =
        some (true, [[(0, "HALTED_B"), (2, "HALTED_B")]]))
  obtain ⟨g, hg, h⟩ := Option.bind_eq_some_iff.1 h
  obtain ⟨a, ha, h⟩ := Option.bind_eq_some_iff.1 h
  obtain ⟨tokens, htokens, h⟩ := Option.map_eq_some_iff.1 h
  obtain ⟨hmarks, hreports⟩ := Prod.mk.inj h
  obtain ⟨c, hc, hcreports⟩ := List.map_eq_singleton_iff.1 hreports
  rw [Bool.and_eq_true, List.all_eq_true] at hmarks
  refine ⟨g, a, tokens, c, ?_, eq_ok_of_toOption ha, .of_alone hmarks.1 fun m hm s hs => ?_,
    eq_ok_of_toOption htokens, hc, hcreports⟩
  · rw [loadAutomaton]
    dsimp only
    rw [eq_ok_of_toOption htext, ok_bind, eq_ok_of_toOption hg]
    change g.compile.result.mapError _ = .ok a
    rw [eq_ok_of_toOption ha]
    rfl
  · have hinterior := hmarks.2 m hm
    rw [hs, Option.all_some, Bool.and_eq_true, List.isEmpty_iff] at hinterior
    refine .of_alone hinterior.1 fun m hm => ?_
    rw [hinterior.2] at hm
    cases hm

theorem check_halted_lined : ∃ lines : List String,
    lines.Perm [closingLine "in" "<a\n" "HALTED_" (0, "HALTED_B"),
      closingLine "in" "<a\n" "HALTED_" (2, "HALTED_B")] ∧
    run lined ["check", "in", "--grammar=lined.json"] =
      { code := 1, err := unlines <| lines ++
        ["", toString lines.length ++ " unterminated run(s) in '" ++ "in" ++ "'"] } := by
  obtain ⟨g, a, tokens, c, hload, hg, hmarks, htokens, hhalted, hreports⟩ := exists_lined
  have hparse : Options.parse ["in", "--grammar=lined.json"] =
      .ok ⟨"in", .file "lined.json", none, false⟩ := by decide +kernel
  have htext : readText lined "in" = .ok "<a\n" := eq_ok_of_toOption (by decide +kernel)
  obtain ⟨lines, hlines, -, -, hrun⟩ := @check_halted lined _
    ⟨"in", .file "lined.json", none, false⟩ hparse a hload _ htext g hg
    (.inr ⟨tokens, htokens⟩) "HALTED_" (by decide) hmarks
  rw [hhalted] at hlines hrun
  rw [List.flatMap_singleton, hreports] at hlines
  exact ⟨lines, hlines, hrun⟩

/-- One run is open when its line ends, and two are reported: the opener and the end of the line are
tokens of their own, which both carry the mark. -/
theorem check_twice : ∃ (g : Grammar) (a : Automaton) (c : Closing),
    loadAutomaton lined (.file "lined.json") = .ok a ∧ g.compile.result = .ok a ∧
    g.Marks "HALTED_" ∧ readText lined "in" = .ok "<a\n" ∧
    (a.closings "<a\n").filter (·.close.halted) = [c] ∧
    run lined ["check", "in", "--grammar=lined.json"] =
      { code := 1
        err := "in:1:1: unterminated B\nin:1:3: unterminated B\n\n" ++
          "2 unterminated run(s) in 'in'\n" } := by
  obtain ⟨g, a, tokens, c, hload, hg, hmarks, -, hhalted, -⟩ := exists_lined
  exact ⟨g, a, c, hload, hg, hmarks, eq_ok_of_toOption (by decide +kernel), hhalted,
    by decide +kernel⟩

end CommandLine

end TrieLexer
