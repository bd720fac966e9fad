import TrieLexer.Proofs.Backlog
import TrieLexer.Proofs.Nesting
import TrieLexer.Proofs.Resumption

/-!
# Queues that return to a place

A queue that returns to the end of the last token taken scans the input from there as if it began
there. If the place lies outside of nested runs and the grammar is plain, it gives the tokens again
that were still waiting. Inside a nested run it does not: a place does not say in which grammar it
lies, and the rest of the run is scanned with the outer grammar.

## Main definitions

* `TokenQueue.taken` — a queue from which tokens of an input have been taken.
* `TokenQueue.rewound` — a queue that has returned to its place.
* `Grammar.Outside` — a place at which a token of the flat grammar ends.

## Main results

* `Grammar.rewinding` — a queue that returns to a place scans the rest of the input alone.
* `Grammar.rewinding_inside` — inside a nested run the tokens are others.
-/

namespace TrieLexer

open Text (byteLength)

/-! ### Places outside of runs -/

namespace Lexeme

@[simp] theorem text_flat (l : Lexeme) : l.flat.text = l.text := by cases l <;> rfl

theorem spelled_map_flat (ls : List Lexeme) : spelled (ls.map .flat) = spelled ls := by
  induction ls with
  | nil => rfl
  | cons l ls ih => rw [List.map_cons, spelled_cons, spelled_cons, text_flat, ih]

/-- A token of a flat lexeme is all of it. -/
theorem stop_of_flat {position : Nat} {l : Lexeme} {t : Token} {u v : List Token}
    (h : l.flat.tokens position = u ++ t :: v) : t.stop = position + byteLength l.text := by
  rw [← text_flat]
  cases l with
  | plain text label => exact (tokenAt_eq h).2.2
  | whole text c =>
    rw [flat, tokens] at h
    exact (tokenAt_eq h).2.2
  | nested opener interior terminator c tokens =>
    rw [flat, Lexeme.tokens] at h
    exact (tokenAt_eq h).2.2

end Lexeme

/-- Between two lexemes no flat token ends. -/
theorem stop_of_listing_flat {l : Lexeme} {front back : List Lexeme} {t : Token}
    (h : t ∈ listing 0 ((front ++ l :: back).map .flat)) (hlt : byteLength (spelled front) < t.stop)
    (hle : t.stop ≤ byteLength (spelled (front ++ [l]))) :
    t.stop = byteLength (spelled (front ++ [l])) := by
  obtain ⟨front₀, l₀, back₀, hsplit, ht⟩ := exists_of_mem_listing h
  obtain ⟨first, rest, hwhole, rfl, hrest⟩ := List.map_eq_append_iff.1 hsplit
  obtain ⟨x, last, rfl, rfl, -⟩ := List.map_eq_cons_iff.1 hrest
  obtain ⟨u, v, htokens⟩ := List.append_of_mem ht
  have hstop := Lexeme.stop_of_flat htokens
  rw [Lexeme.spelled_map_flat, Nat.zero_add, ← Text.byteLength_append] at hstop
  rcases split_append hwhole.symm with ⟨more, rfl, -⟩ | ⟨more, rfl, hmore⟩
  · simp only [spelled_append, spelled_cons, spelled_nil, List.append_nil,
      Text.byteLength_append] at *
    omega
  · cases more with
    | nil =>
      obtain ⟨rfl, -⟩ := List.cons.inj hmore
      simpa using hstop
    | cons y more =>
      obtain ⟨rfl, -⟩ := List.cons.inj hmore
      simp only [spelled_append, spelled_cons, spelled_nil, List.append_nil,
        Text.byteLength_append] at *
      omega

/-- A token that ends where a lexeme ends is the last token of its lexeme. -/
theorem Cut.last_of_stop {position : Nat} {text : List Char} {u v : List Token} {t : Token}
    (h : Cut position text (u ++ t :: v)) (ht : t.stop = position + byteLength text) : v = [] := by
  refine List.eq_nil_iff_forall_not_mem.2 fun w hw => ?_
  have hlt := (List.pairwise_cons.1 (List.pairwise_append.1 h.pairwise).2.1).1 w hw
  have hmem : w ∈ u ++ t :: v := List.mem_append_right _ (List.mem_cons_of_mem _ hw)
  have hle := h.stop_le hmem
  have hpos := (h.lt_stop hmem).2
  omega

/-- Behind a token that ends where a flat token ends, the tokens are those of the text behind it. -/
theorem Charted.resume_outside {lexicon : Lexicon} {matchers : List (GreedyMatcher Compilation)}
    {a : Automaton} {place : NodeId → Locus} (h : Charted lexicon matchers a place)
    (hlawful : Lawful True a) (hlone : lexicon.LonePoint) (hres : a.Resumes place) {x : String}
    {ls : List Lexeme} (hx : a.lexemes x = .ok ls) {before after : List Token} {t t₀ : Token}
    (ht : listing 0 ls = before ++ t :: after) (ht₀ : t₀ ∈ listing 0 (ls.map .flat))
    (hstop : t₀.stop = t.stop) : ∃ rest, Text.span? x t.stop x.utf8ByteSize = some rest ∧
      ∃ tokens, a.tokenize rest = .ok tokens ∧ tokens.map (·.shifted t.stop) = after := by
  obtain ⟨front, l, back, u, v, rfl, hl, -, rfl⟩ := split_listing ht
  obtain ⟨-, hscanned⟩ := h.scanned_lexemes (fun _ _ => hlawful.takes) hx
  have hone : ∀ l' ∈ [l], l'.Scanned a.inner :=
    List.forall_mem_singleton.2 (hscanned l (List.mem_append_right _ List.mem_cons_self))
  have hcut := hlawful.cut_spelled hone (0 + byteLength (spelled front))
  simp only [spelled_cons, spelled_nil, listing_cons, listing_nil, List.append_nil, hl] at hcut
  have hend : t.stop = byteLength (spelled (front ++ [l])) := by
    have hle := hcut.stop_le (List.mem_append_right u List.mem_cons_self)
    have hlt := hcut.lt_stop (List.mem_append_right u List.mem_cons_self)
    rw [← hstop]
    refine stop_of_listing_flat ht₀ ?_ ?_
    · rw [hstop]
      omega
    · rw [hstop, spelled_append, Text.byteLength_append]
      simpa using hle
  obtain rfl : v = [] := hcut.last_of_stop (by
    rw [hend, spelled_append, Text.byteLength_append]
    simp)
  rw [Nat.zero_add, ← hend, List.nil_append]
  exact h.resume_tokens hlawful hlone hres hx hend

/-- The input goes on behind a token. -/
theorem Cut.span_behind {x : String} {tokens : List Token} (h : Cut 0 x.toList tokens) {t : Token}
    (ht : t ∈ tokens) : ∃ rest, Text.span? x t.stop x.utf8ByteSize = some rest := by
  obtain ⟨-, before, after, hx, hposition⟩ := h.mem ht
  refine ⟨String.ofList after,
    Text.span?_eq_some_iff.2 ⟨String.ofList (before ++ t.value.toList), "", ?_, ?_, ?_⟩⟩
  · rw [← String.toList_inj, hx]
    simp
  · rw [Text.utf8ByteSize_eq, String.toList_ofList, Text.byteLength_append, Token.stop, hposition,
      Nat.zero_add]
  · rw [Text.utf8ByteSize_eq, Text.utf8ByteSize_eq, String.toList_ofList, hx, Token.stop, hposition]
    simp [Nat.add_assoc]

theorem Text.span?_whole (x : String) : Text.span? x 0 x.utf8ByteSize = some x :=
  Text.span?_eq_some_iff.2 ⟨"", "", by simp, rfl, Nat.zero_add _⟩

/-! ### Queues -/

namespace TokenQueue

variable {lexicon : Lexicon} {matchers : List (GreedyMatcher Compilation)} {a : Automaton}
  {place : NodeId → Locus} {q : TokenQueue} {base : Nat}

/-- A queue that has been given a whole input, and from which some tokens have been taken. -/
def taken (a : Automaton) (x : String) (k : Nat) : Except ScanFault TokenQueue := do
  let q ← (start a).feed x
  let q ← q.finish
  return (q.take k).2

/-- A queue that has returned to the place that it saves, and has been given the rest of the
input. -/
def rewound (q : TokenQueue) (rest : String) : Except ScanFault TokenQueue := do
  let q ← q.reset rest q.save
  q.finish

/-- Tokens that are taken no longer wait, and the last of them ends at the place of the queue. -/
theorem take_eq (q : TokenQueue) (k : Nat) : (q.take k).2 =
    { q with
      waiting := q.waiting.drop k
      boundary := ((q.waiting.take k).getLast?.map Token.stop).getD q.boundary } := by
  induction k generalizing q with
  | zero => rfl
  | succ k ih =>
    obtain ⟨s, waiting, boundary⟩ := q
    cases waiting with
    | nil => rfl
    | cons t waiting =>
      change (TokenQueue.take ⟨s, waiting, t.stop⟩ k).2 = _
      rw [ih, List.take_succ_cons, List.getLast?_cons]
      cases (waiting.take k).getLast? <;> rfl

/-- A queue at the beginning of a segment takes in a whole input. -/
theorem exists_segment (h : Charted lexicon matchers a place) (hlawful : Lawful True a)
    (hlone : lexicon.LonePoint) (hs : q.scanner.Follows a place base "" [])
    (hw : q.scanner.Works True place) (x : String) : ∃ q' tokens,
      (q.feed x >>= finish) = .ok q' ∧ a.tokenize x = .ok tokens ∧
      q'.waiting = q.waiting ++ tokens.map (·.shifted base) ∧ q'.boundary = q.boundary ∧
      q'.scanner.automaton = a ∧ q'.scanner.Works True place := by
  obtain ⟨s, waiting, boundary⟩ := q
  obtain rfl : s.automaton = a := hs.1
  have htakes : ∀ id spec, s.automaton.runs[id]? = some spec → s.automaton.inner.Takes id :=
    fun _ _ => hlawful.takes
  have hsafe : ∀ id spec, s.automaton.runs[id]? = some spec → s.automaton.inner.IsSafe True id :=
    fun _ _ => hlawful.isSafe_inner
  obtain ⟨⟨s₁, found⟩, hconsume⟩ :=
    (hw.safe_handle htakes hsafe (fun _ => hlone) h .collect #[] (.chunk x)).exists trivial
  obtain ⟨ha₁, hw₁⟩ := hw.handle htakes (fun _ => hlone) h hconsume
  obtain ⟨ls, hs₁, hfound⟩ := hs.consume h hlawful hconsume
  obtain ⟨⟨s₂, found'⟩, hflush⟩ := (hw₁.safe_handle (ha₁ ▸ htakes) (ha₁ ▸ hsafe) (fun _ => hlone)
    (ha₁ ▸ h) .collect #[] .done).exists trivial
  obtain ⟨ha₂, hw₂⟩ := hw₁.handle (ha₁ ▸ htakes) (fun _ => hlone) (ha₁ ▸ h) hflush
  obtain ⟨ms, htokens, -, hfound'⟩ := hs₁.flush h hlawful hflush
  rw [String.empty_append] at htokens
  refine ⟨⟨s₂, waiting ++ found.toList ++ found'.toList, boundary⟩, _, ?_, htokens, ?_, rfl,
    ha₂.trans ha₁, hw₂⟩
  · refine bind_eq_ok.2 ⟨⟨s₁, waiting ++ found.toList, boundary⟩, ?_, ?_⟩
    · exact bind_eq_ok.2 ⟨_, hconsume, rfl⟩
    · exact bind_eq_ok.2 ⟨_, hflush, rfl⟩
  · rw [listing_shifted, Nat.zero_add, listing_append, hfound, hfound', List.append_assoc]
    simp

/-- A queue that returns to its place scans the rest of the input as a new queue does. -/
theorem exists_rewound (h : Charted lexicon matchers a place) (hlawful : Lawful True a)
    (hlone : lexicon.LonePoint) (ha : q.scanner.automaton = a) (hw : q.scanner.Works True place)
    (rest : String) : ∃ q' tokens, q.rewound rest = .ok q' ∧ a.tokenize rest = .ok tokens ∧
      q'.waiting = tokens.map (·.shifted q.save.position) ∧ q'.save = q.save := by
  obtain ⟨r, position, hs, -⟩ := id hw
  obtain ⟨q', tokens, hrewound, htokens, hwaiting, hboundary, -⟩ := exists_segment
    (q := ⟨q.scanner.reset q.save.position, [], q.save.position⟩) h hlawful hlone
    (Scanner.follows_reset ha hs h _) (hw.reset (ha ▸ h) _) rest
  exact ⟨q', tokens, hrewound, htokens, hwaiting, congrArg Checkpoint.mk hboundary⟩

end TokenQueue

/-- A place of an input that lies outside of runs: the beginning, or the end of a token of the flat
grammar. -/
def Grammar.Outside (g : Grammar) (x : String) (position : Nat) : Prop :=
  position = 0 ∨ ∃ flat tokens, g.flat.compile.result = .ok flat ∧ flat.tokenize x = .ok tokens ∧
    ∃ t ∈ tokens, t.stop = position

/-- The tokens behind a token that ends outside of runs are those of the text behind it. -/
theorem Grammar.Outside.resume {g : Grammar} {a : Automaton} (h : g.compile.result = .ok a)
    (hlone : g.LonePoint) (hplain : g.toLexicon.IsPlain g.greedyMatchers) {x : String}
    {before after : List Token} {t : Token} (hx : a.tokenize x = .ok (before ++ t :: after))
    (ho : g.Outside x t.stop) : ∃ rest, Text.span? x t.stop x.utf8ByteSize = some rest ∧
      ∃ tokens, a.tokenize rest = .ok tokens ∧ tokens.map (·.shifted t.stop) = after := by
  obtain ⟨place, hchart, hres⟩ := resumes_compile h hplain
  have hlawful : Lawful True a := g.lawful_compile (fun _ => hlone) h
  obtain ⟨ls, hls, hlisting⟩ := hchart.exists_lexemes hx
  obtain ⟨hspelled, hscanned⟩ := hchart.scanned_lexemes (fun _ _ => hlawful.takes) hls
  have hlt := (hlawful.cut_spelled hscanned 0).lt_stop (t := t) (by rw [← hlisting]; simp)
  obtain ⟨flat, tokens₀, hflat, htokens₀, t₀, ht₀, hstop⟩ := ho.resolve_left (by omega)
  obtain ⟨flat', hflat', hmirrors⟩ := flat_compile h
  obtain rfl : flat' = flat := Except.ok.inj (hflat'.symm.trans hflat)
  obtain ⟨placeFlat, hchartFlat⟩ := charted_compile hflat
  obtain ⟨ls₀, hls₀, rfl⟩ := hchartFlat.exists_lexemes htokens₀
  cases (unfolds_lexemes h hlone.lexicon hflat hmirrors hls).1.symm.trans hls₀
  exact hchart.resume_outside hlawful hlone.lexicon hres hls hlisting.symm ht₀ hstop

/-- A queue that has taken some tokens of an input returns to the place that it saves, and scans the
rest of the input alone. If the grammar is plain and the place lies outside of runs, then the same
tokens wait again. -/
theorem Grammar.rewinding {g : Grammar} {a : Automaton} (h : g.compile.result = .ok a)
    (hlone : g.LonePoint) (hplain : g.toLexicon.IsPlain g.greedyMatchers) (x : String) (k : Nat) :
    ∃ q rest q' tokens, TokenQueue.taken a x k = .ok q ∧
      Text.span? x q.save.position x.utf8ByteSize = some rest ∧ q.rewound rest = .ok q' ∧
      q'.save = q.save ∧ a.tokenize rest = .ok tokens ∧
      q'.waiting = tokens.map (·.shifted q.save.position) ∧
      (g.Outside x q.save.position → q'.waiting = q.waiting) := by
  obtain ⟨place, hchart⟩ := charted_compile h
  have hlawful : Lawful True a := g.lawful_compile (fun _ => hlone) h
  have hbegin := Scanner.reaches_ofAutomaton hchart
  have hworks : (Scanner.ofAutomaton a).Works True place :=
    ⟨_, 0, hbegin, Reading.fed_of_run_eq_none rfl, fun _ => Reading.spelled_root hchart none _⟩
  obtain ⟨q₀, tokens, hfed, htokens, hwaiting, hboundary, ha, hworks₀⟩ :=
    TokenQueue.exists_segment (q := .start a) hchart hlawful hlone.lexicon
      (Scanner.follows_reset rfl hbegin hchart 0) hworks x
  have htaken : TokenQueue.taken a x k = .ok (q₀.take k).2 := by
    obtain ⟨q₁, hfeed, hfinish⟩ := bind_eq_ok.1 hfed
    rw [TokenQueue.taken, hfeed, ok_bind, hfinish]
    rfl
  have hall : q₀.waiting = tokens := by simpa [TokenQueue.start] using hwaiting
  have htake := q₀.take_eq k
  rw [hall, hboundary] at htake
  generalize (q₀.take k).2 = q at htake htaken
  have hrewind (rest : String) := TokenQueue.exists_rewound (q := q) hchart hlawful hlone.lexicon
    (by rw [htake]; exact ha) (by rw [htake]; exact hworks₀) rest
  have hsplit := List.take_append_drop k tokens
  rcases List.eq_nil_or_concat (tokens.take k) with hnil | ⟨before, t, hlast⟩
  · -- Nothing has been taken, and the queue returns to the beginning.
    rw [hnil] at htake hsplit
    have hzero : q.save.position = 0 := by rw [htake]; rfl
    obtain ⟨q', tokens', hrewound, htokens', hwaiting', hsave⟩ := hrewind x
    refine ⟨q, x, q', tokens', htaken, by rw [hzero]; exact Text.span?_whole x, hrewound, hsave,
      htokens', hwaiting', fun _ => ?_⟩
    cases htokens.symm.trans htokens'
    rw [hwaiting', hzero, htake]
    simpa using hsplit.symm
  · rw [List.concat_eq_append] at hlast
    rw [hlast] at htake hsplit
    rw [List.append_assoc] at hsplit
    have hstop : q.save.position = t.stop := by rw [htake]; simp [TokenQueue.save]
    obtain ⟨ls, hls, hlisting⟩ := hchart.exists_lexemes htokens
    obtain ⟨hspelled, hscanned⟩ := hchart.scanned_lexemes (fun _ _ => hlawful.takes) hls
    have hcut := hlawful.cut_spelled hscanned 0
    rw [hspelled, ← hlisting] at hcut
    obtain ⟨rest, hspan⟩ := hcut.span_behind (t := t) (by rw [← hsplit]; simp)
    obtain ⟨q', tokens', hrewound, htokens', hwaiting', hsave⟩ := hrewind rest
    refine ⟨q, rest, q', tokens', htaken, by rw [hstop]; exact hspan, hrewound, hsave, htokens',
      hwaiting', fun houtside => ?_⟩
    rw [← hsplit] at htokens
    obtain ⟨rest', hspan', tokens'', htokens'', hafter⟩ :=
      Outside.resume h hlone hplain htokens (hstop ▸ houtside)
    cases hspan.symm.trans hspan'
    cases htokens'.symm.trans htokens''
    rw [hwaiting', hstop, hafter, htake]
    rfl

/-- The last token taken is the terminator of a run. -/
theorem Grammar.rewinding_bracketed : ∃ a q rest q', bracketed.compile.result = .ok a ∧
    TokenQueue.taken a "<é+>;b" 4 = .ok q ∧ q.save = ⟨5⟩ ∧ bracketed.Outside "<é+>;b" 5 ∧
    Text.span? "<é+>;b" 5 "<é+>;b".utf8ByteSize = some rest ∧ q.rewound rest = .ok q' ∧
    q'.waiting = q.waiting := by
  have hplace : (bracketed.compile.result.toOption.bind fun a =>
      (TokenQueue.taken a "<é+>;b" 4).toOption.map TokenQueue.save) = some ⟨5⟩ := by
    decide +kernel
  have hall : (bracketed.flat.compile.result.toOption.bind fun flat =>
      (flat.tokenize "<é+>;b").toOption) = some [⟨"<é+>", "bracketed", 0⟩, ⟨";", "semicolon", 5⟩,
        ⟨"b", "IDENTIFIER", 6⟩] := by decide +kernel
  obtain ⟨flat, hflat, hall⟩ := exists_tokens hall
  have houtside : bracketed.Outside "<é+>;b" 5 :=
    .inr ⟨flat, _, hflat, hall, ⟨"<é+>", "bracketed", 0⟩, by decide, by decide⟩
  obtain ⟨a, ha, hplace⟩ := Option.bind_eq_some_iff.1 hplace
  obtain ⟨q, rest, q', tokens, htaken, hspan, hrewound, -, -, -, hwaits⟩ :=
    rewinding (eq_ok_of_toOption ha) lonePoint_bracketed (by decide) "<é+>;b" 4
  have hsave : q.save = ⟨5⟩ := by
    rw [htaken] at hplace
    exact Option.some.inj hplace
  rw [hsave] at hspan hwaits
  exact ⟨a, q, rest, q', eq_ok_of_toOption ha, htaken, hsave, houtside, hspan, hrewound,
    hwaits houtside⟩

/-- The last token taken is the opener of a run. The queue returns to the beginning of the interior,
which is then scanned together with the terminator, and not with the grammar of the interior. -/
theorem Grammar.rewinding_inside : ∃ a q q', bracketed.compile.result = .ok a ∧
    TokenQueue.taken a "<+>" 1 = .ok q ∧ q.save = ⟨1⟩ ∧
    Text.span? "<+>" 1 "<+>".utf8ByteSize = some "+>" ∧ q.rewound "+>" = .ok q' ∧
    q.waiting = [⟨"+", "PUNCTUATION", 1⟩, ⟨">", "bracketed", 2⟩] ∧
    q'.waiting = [⟨"+>", "UNKNOWN", 1⟩] := by
  have h : (bracketed.compile.result.toOption.bind fun a =>
      (TokenQueue.taken a "<+>" 1).toOption.bind fun q =>
        (q.rewound "+>").toOption.map fun q' => (q.save, q.waiting, q'.waiting)) =
      some (⟨1⟩, [⟨"+", "PUNCTUATION", 1⟩, ⟨">", "bracketed", 2⟩], [⟨"+>", "UNKNOWN", 1⟩]) := by
    decide +kernel
  obtain ⟨a, ha, h⟩ := Option.bind_eq_some_iff.1 h
  obtain ⟨q, hq, h⟩ := Option.bind_eq_some_iff.1 h
  obtain ⟨q', hq', h⟩ := Option.map_eq_some_iff.1 h
  obtain ⟨hsave, hwaiting, hwaiting'⟩ := by simpa only [Prod.mk.injEq] using h
  exact ⟨a, q, q', eq_ok_of_toOption ha, eq_ok_of_toOption hq, hsave, by decide +kernel,
    eq_ok_of_toOption hq', hwaiting, hwaiting'⟩

end TrieLexer
