import TrieLexer.Proofs.Renewal
import TrieLexer.Stream.TokenQueue

/-!
# What a queue has given out

A queue of tokens is fed, ended, emptied and reset in any order. Since the last reset the input
falls into segments, each of which was ended, and an open segment at the end. The tokens that were
taken and those that still wait are together the tokens of these segments, each of them scanned
alone.

## Main definitions

* `QueueCall`, `TokenQueue.performAll` — what can be asked of a queue, and its replies.
* `Timeline` — what has been fed and taken since the last reset, read off calls and replies.
* `Automaton.transcript` — the tokens of segments that are scanned alone.
* `Scanner.Follows` — a scanner in the middle of a segment.

## Main results

* `Scanner.Follows.consume`, `Scanner.Follows.flush` — a scanner follows its segment.
* `Timeline.Kept.perform` — a call keeps the tokens and the place of a queue in step.
* `Grammar.backlog` — a queue loses no token and gives none out twice.
-/

namespace TrieLexer

open Text (byteLength)

/-- What can be asked of a queue. -/
inductive QueueCall where
  | feed (chunk : String)
  | finish
  | next
  | save
  | reset (chunk : String) (checkpoint : Checkpoint)
deriving DecidableEq, Repr, Inhabited

/-- What a queue replies. -/
inductive QueueReply where
  | done
  | token (token : Option Token)
  | place (checkpoint : Checkpoint)
deriving DecidableEq, Repr, Inhabited

namespace TokenQueue

/-- Answers a call. -/
def perform (q : TokenQueue) : QueueCall → Except ScanFault (QueueReply × TokenQueue)
  | .feed chunk => do return (.done, ← q.feed chunk)
  | .finish => do return (.done, ← q.finish)
  | .next => .ok (.token q.next.1, q.next.2)
  | .save => .ok (.place q.save, q)
  | .reset chunk checkpoint => do return (.done, ← q.reset chunk checkpoint)

/-- Answers calls one after the other. -/
def performAll (q : TokenQueue) : List QueueCall → Except ScanFault (List QueueReply × TokenQueue)
  | [] => .ok ([], q)
  | call :: calls => do
    let (reply, q) ← q.perform call
    let (replies, q) ← performAll q calls
    return (reply :: replies, q)

end TokenQueue

/-- What a queue has been fed and what has been taken from it since the last reset. -/
structure Timeline where
  start : Nat := 0
  /-- The segments that have been ended. -/
  finished : List String := []
  /-- The text since the last end of input. -/
  opened : String := ""
  taken : List Token := []
deriving DecidableEq, Repr, Inhabited

namespace Timeline

/-- Adds a call and its reply. -/
def extend (t : Timeline) : QueueCall → QueueReply → Timeline
  | .feed chunk, _ => { t with opened := t.opened ++ chunk }
  | .finish, _ => { t with finished := t.finished ++ [t.opened], opened := "" }
  | .next, .token (some token) => { t with taken := t.taken ++ [token] }
  | .reset chunk checkpoint, _ => { start := checkpoint.position, opened := chunk }
  | _, _ => t

/-- The timeline of calls and their replies. -/
def extendAll (t : Timeline) (calls : List QueueCall) (replies : List QueueReply) : Timeline :=
  (calls.zip replies).foldl (fun t x => t.extend x.1 x.2) t

/-- Where the open segment begins. -/
def base (t : Timeline) : Nat := t.start + (String.join t.finished).utf8ByteSize

/-- The end of the last token taken. -/
def boundary (t : Timeline) : Nat := (t.taken.getLast?.map Token.stop).getD t.start

end Timeline

namespace Automaton

/-- The tokens of texts that follow each other from a position on, each of them scanned alone. -/
def tokenizeEach (a : Automaton) (start : Nat) : List String → Except ScanFault (List Token)
  | [] => .ok []
  | x :: xs => do
    let tokens ← a.tokenize x
    let rest ← tokenizeEach a (start + x.utf8ByteSize) xs
    return tokens.map (·.shifted start) ++ rest

/-- The tokens of segments that are scanned alone, the last of which has not been ended. -/
def transcript (a : Automaton) (start : Nat) (finished : List String) (opened : String) :
    Except ScanFault (List Token) := do
  let before ← a.tokenizeEach start finished
  let (_, tokens) ← (Scanner.ofAutomaton a).consume .collect #[] opened
  return before ++
    tokens.toList.map (·.shifted (start + (String.join finished).utf8ByteSize))

theorem tokenizeEach_concat {a : Automaton} {start : Nat} {xs : List String} {x : String}
    {before tokens : List Token} (hxs : a.tokenizeEach start xs = .ok before)
    (hx : a.tokenize x = .ok tokens) :
    a.tokenizeEach start (xs ++ [x]) =
      .ok (before ++ tokens.map (·.shifted (start + (String.join xs).utf8ByteSize))) := by
  induction xs generalizing start before with
  | nil =>
    cases hxs
    simp only [List.nil_append, tokenizeEach, hx, ok_bind]
    simp [pure, Except.pure]
  | cons y xs ih =>
    obtain ⟨front, hy, hxs⟩ := bind_eq_ok.1 hxs
    obtain ⟨rest, hrest, hxs⟩ := bind_eq_ok.1 hxs
    cases hxs
    simp only [List.cons_append, tokenizeEach, hy, ok_bind, ih hrest, String.join_cons,
      String.utf8ByteSize_append, ← Nat.add_assoc, List.append_assoc]
    rfl

end Automaton

/-! ### A scanner in the middle of a segment -/

namespace Scanner

variable {lexicon : Lexicon} {matchers : List (GreedyMatcher Compilation)} {a : Automaton}
  {place : NodeId → Locus} {base : Nat} {text : String} {s s' : Scanner} {ls : List Lexeme}
  {out out' : Array Token}

/-- A scanner stands where a new one would stand after a text, further on by an offset. -/
def Follows (a : Automaton) (place : NodeId → Locus) (base : Nat) (text : String)
    (ls : List Lexeme) (s : Scanner) : Prop :=
  s.automaton = a ∧ ∃ r r', s.Reaches place r (base + byteLength (spelled ls)) ∧
    Reading.take a a.inner { idle := Array.replicate a.runs.length none } (.chunk text) =
      .ok (r', ls) ∧
    r.Alike r' ∧ r.Fed a.inner

theorem follows_reset {r : Reading} {position : Nat} (ha : s.automaton = a)
    (hs : s.Reaches place r position) (h : Charted lexicon matchers a place) (base : Nat) :
    Follows a place base "" [] (s.reset base) := by
  refine ⟨ha, r.park, { idle := Array.replicate a.runs.length none }, hs.reset (ha ▸ h) base, rfl,
    ?_, Reading.fed_of_run_eq_none r.park_run⟩
  exact Reading.alike_of_run_eq_none r.park_toCursor.symm r.park_run rfl

section Lawful

variable {clean : Prop} (h : Charted lexicon matchers a place) (hlawful : Lawful clean a)

include h hlawful

/-- What a scanner in the middle of a segment makes of more input, a new scanner makes of it. -/
theorem Follows.handle (hs : s.Follows a place base text ls) {input : Input}
    (hy : s.handle .collect out input = .ok (s', out')) :
    s'.automaton = a ∧ ∃ r₁ r' r₁' ms,
      s'.Reaches place r₁ (base + byteLength (spelled (ls ++ ms))) ∧
      Reading.take a a.inner { idle := Array.replicate a.runs.length none } (.chunk text) =
        .ok (r', ls) ∧
      r'.take a a.inner input = .ok (r₁', ms) ∧ r₁.Alike r₁' ∧ r₁.Fed a.inner ∧
      out'.toList = out.toList ++ listing (base + byteLength (spelled ls)) ms := by
  obtain ⟨rfl, r, r', hs, htext, hal, hfed⟩ := hs
  have htakes : ∀ id spec, s.automaton.runs[id]? = some spec → s.automaton.inner.Takes id :=
    fun _ _ => hlawful.takes
  have hforgets : ∀ id spec, s.automaton.runs[id]? = some spec → s.automaton.inner.Forgets id :=
    fun _ _ => hlawful.forgets
  have hroot := Reading.sound_root h 0 (Array.replicate s.automaton.runs.length none)
  have hfed' := (hroot.take_scanned htakes (Reading.fed_of_run_eq_none rfl) h htext).1
  obtain ⟨r₁, ms, hr, ha, hs', rfl⟩ := hs.handle h hy
  obtain ⟨r₁', hr', hal₁⟩ :=
    hal.take htakes hforgets hs.sound (hroot.take h htext) h hfed hfed' hr
  refine ⟨ha, r₁, r', r₁', ms, ?_, htext, hr', hal₁, (hs.sound.take_scanned htakes hfed h hr).1,
    foldl_collect ..⟩
  rwa [spelled_append, Text.byteLength_append, ← Nat.add_assoc]

/-- A chunk joins the segment. -/
theorem Follows.consume (hs : s.Follows a place base text ls) {chunk : String}
    (hy : s.consume .collect out chunk = .ok (s', out')) :
    ∃ ms, s'.Follows a place base (text ++ chunk) (ls ++ ms) ∧
      out'.toList = out.toList ++ listing (base + byteLength (spelled ls)) ms := by
  obtain ⟨ha, r₁, r', r₁', ms, hs', htext, hr', hal, hfed, hout⟩ := hs.handle h hlawful hy
  refine ⟨ms, ⟨ha, r₁, r₁', hs', ?_, hal, hfed⟩, hout⟩
  rw [Reading.take] at htext hr' ⊢
  simp only [String.toList_append, Reading.read_append, htext, ok_bind, hr']
  rfl

/-- The end of input ends the segment, and the next one begins behind it. -/
theorem Follows.flush (hs : s.Follows a place base text ls)
    (hy : s.flush .collect out = .ok (s', out')) :
    ∃ ms, a.tokenize text = .ok (listing 0 (ls ++ ms)) ∧
      s'.Follows a place (base + text.utf8ByteSize) "" [] ∧
      out'.toList = out.toList ++ listing (base + byteLength (spelled ls)) ms := by
  obtain ⟨ha, r₁, r', r₁', ms, hs', htext, hr', hal, hfed, hout⟩ := hs.handle h hlawful hy
  have hspelled : spelled (ls ++ ms) = text.toList := by
    rw [spelled_append, (Reading.finish_spelled hr').1]
    exact Reading.read_spelled htext
  obtain ⟨r₀, rfl⟩ := Reading.finish_park hr'
  refine ⟨ms, ?_, ⟨ha, r₁, { idle := Array.replicate a.runs.length none }, ?_, rfl, ?_, hfed⟩, hout⟩
  · simp only [h.tokenize_eq, Automaton.lexemes, htext, ok_bind, hr']
    rfl
  · rwa [hspelled, ← Text.utf8ByteSize_eq] at hs'
  · exact Reading.alike_of_run_eq_none (r₀.park_toCursor.symm.trans hal.toCursor)
      (hal.symm.run_eq_none r₀.park_run) rfl

end Lawful

end Scanner

/-! ### Queues -/

namespace Timeline

variable {lexicon : Lexicon} {matchers : List (GreedyMatcher Compilation)} {a : Automaton}
  {place : NodeId → Locus} {t : Timeline} {q q' : TokenQueue} {reply : QueueReply}

/-- A queue is in step with a timeline: so many tokens are those of the ended segments, and such
lexemes have been found in the open one. -/
structure Kept (a : Automaton) (place : NodeId → Locus) (t : Timeline) (q : TokenQueue)
    (before : List Token) (ls : List Lexeme) : Prop where
  ended : a.tokenizeEach t.start t.finished = .ok before
  follows : q.scanner.Follows a place t.base t.opened ls
  tokens : t.taken ++ q.waiting = before ++ listing t.base ls
  boundary : q.boundary = t.boundary

theorem kept_start (h : Charted lexicon matchers a place) :
    Kept a place {} (.start a) [] [] where
  ended := rfl
  follows := Scanner.follows_reset rfl (Scanner.reaches_ofAutomaton h) h 0
  tokens := rfl
  boundary := rfl

section Lawful

variable {clean : Prop} (h : Charted lexicon matchers a place) (hlawful : Lawful clean a)
  {before : List Token} {ls : List Lexeme}

include h hlawful

theorem Kept.feed (hk : Kept a place t q before ls) {chunk : String}
    (hy : q.feed chunk = .ok q') :
    ∃ ls', Kept a place { t with opened := t.opened ++ chunk } q' before ls' := by
  obtain ⟨⟨s, tokens⟩, hconsume, hy⟩ := bind_eq_ok.1 hy
  cases hy
  obtain ⟨ms, hfollows, htokens⟩ := hk.follows.consume h hlawful hconsume
  refine ⟨ls ++ ms, hk.ended, hfollows, ?_, hk.boundary⟩
  change t.taken ++ (q.waiting ++ tokens.toList) = before ++ listing t.base (ls ++ ms)
  rw [← List.append_assoc, hk.tokens, htokens, listing_append, List.append_assoc]
  rfl

theorem Kept.finish (hk : Kept a place t q before ls) (hy : q.finish = .ok q') :
    ∃ before', Kept a place { t with finished := t.finished ++ [t.opened], opened := "" } q'
      before' [] := by
  obtain ⟨⟨s, tokens⟩, hflush, hy⟩ := bind_eq_ok.1 hy
  cases hy
  obtain ⟨ms, htokenize, hfollows, htokens⟩ := hk.follows.flush h hlawful hflush
  refine ⟨_, Automaton.tokenizeEach_concat hk.ended htokenize, ?_, ?_, hk.boundary⟩
  · simpa [base, Nat.add_assoc] using hfollows
  · change t.taken ++ (q.waiting ++ tokens.toList) = _
    rw [← List.append_assoc, hk.tokens, htokens, listing_shifted, Nat.zero_add, listing_append]
    simp [base]

theorem Kept.reset (hk : Kept a place t q before ls) {chunk : String} {checkpoint : Checkpoint}
    (hy : q.reset chunk checkpoint = .ok q') :
    ∃ ls', Kept a place { start := checkpoint.position, opened := chunk } q' [] ls' := by
  obtain ⟨ha, r, r', hs, -⟩ := hk.follows
  have hreset : Kept a place { start := checkpoint.position }
      { scanner := q.scanner.reset checkpoint.position, boundary := checkpoint.position } [] [] :=
    ⟨rfl, Scanner.follows_reset ha hs h _, rfl, rfl⟩
  obtain ⟨ls', hk'⟩ := hreset.feed h hlawful hy
  rw [String.empty_append] at hk'
  exact ⟨ls', hk'⟩

omit h hlawful in
theorem Kept.next (hk : Kept a place t q before ls) :
    Kept a place (t.extend .next (.token q.next.1)) q.next.2 before ls := by
  obtain ⟨s, waiting, position⟩ := q
  cases waiting with
  | nil => exact hk
  | cons token waiting =>
    refine ⟨hk.ended, hk.follows, ?_, ?_⟩
    · change t.taken ++ [token] ++ waiting = _
      rw [List.append_assoc]
      exact hk.tokens
    · simp [Timeline.boundary, extend, TokenQueue.next]

/-- A call keeps a queue in step with what has been fed and taken. -/
theorem Kept.perform (hk : Kept a place t q before ls) {call : QueueCall}
    (hy : q.perform call = .ok (reply, q')) :
    ∃ before' ls', Kept a place (t.extend call reply) q' before' ls' := by
  cases call with
  | feed chunk =>
    obtain ⟨q', hfeed, hy⟩ := bind_eq_ok.1 hy
    cases hy
    exact ⟨before, hk.feed h hlawful hfeed⟩
  | finish =>
    obtain ⟨q', hfinish, hy⟩ := bind_eq_ok.1 hy
    cases hy
    obtain ⟨before', hk'⟩ := hk.finish h hlawful hfinish
    exact ⟨before', [], hk'⟩
  | next =>
    cases hy
    exact ⟨before, ls, hk.next⟩
  | save =>
    cases hy
    exact ⟨before, ls, hk⟩
  | reset chunk checkpoint =>
    obtain ⟨q', hreset, hy⟩ := bind_eq_ok.1 hy
    cases hy
    exact ⟨[], hk.reset h hlawful hreset⟩

/-- Calls keep a queue in step with what has been fed and taken. -/
theorem Kept.performAll (hk : Kept a place t q before ls) {calls : List QueueCall}
    {replies : List QueueReply} (hy : q.performAll calls = .ok (replies, q')) :
    ∃ before' ls', Kept a place (t.extendAll calls replies) q' before' ls' := by
  induction calls generalizing q t before ls replies with
  | nil =>
    cases hy
    exact ⟨before, ls, hk⟩
  | cons call calls ih =>
    obtain ⟨⟨reply, q₁⟩, hcall, hy⟩ := bind_eq_ok.1 hy
    obtain ⟨⟨rest, q₂⟩, hcalls, hy⟩ := bind_eq_ok.1 hy
    cases hy
    obtain ⟨before', ls', hk'⟩ := hk.perform h hlawful hcall
    exact ih hk' hcalls

end Lawful

end Timeline

/-- A new scanner consumes a text as it is read. -/
theorem Scanner.Follows.consume_ofAutomaton {lexicon : Lexicon}
    {matchers : List (GreedyMatcher Compilation)} {a : Automaton} {place : NodeId → Locus}
    {base : Nat} {text : String} {ls : List Lexeme} {s : Scanner}
    (hs : s.Follows a place base text ls) (h : Charted lexicon matchers a place) :
    ∃ s', (Scanner.ofAutomaton a).consume .collect #[] text = .ok (s', (listing 0 ls).toArray) := by
  obtain ⟨-, r, r', -, htext, -⟩ := hs
  have hnew : (Scanner.ofAutomaton a).handle .collect #[] (.chunk text) = _ :=
    (Scanner.reaches_ofAutomaton h).handle_eq h #[] (.chunk text)
  rw [Scanner.consume, hnew]
  change ∃ s', _ <$> _ <$> Reading.take a a.inner _ _ = _
  rw [htext]
  refine ⟨_, congrArg Except.ok (Prod.ext rfl ?_)⟩
  rw [← Array.toList_inj]
  exact (foldl_collect _ _).trans (List.nil_append _)

/-- Since the last reset, the tokens taken from a queue and those that wait are together the tokens
of the ended segments, each scanned alone at its place, and of the open segment so far. The queue
saves the end of the last token taken. -/
theorem Grammar.backlog {g : Grammar} {a : Automaton} (h : g.compile.result = .ok a)
    {calls : List QueueCall} {replies : List QueueReply} {q : TokenQueue}
    (hq : (TokenQueue.start a).performAll calls = .ok (replies, q)) :
    let t := Timeline.extendAll {} calls replies
    a.transcript t.start t.finished t.opened = .ok (t.taken ++ q.waiting) ∧
      q.save = ⟨t.boundary⟩ := by
  obtain ⟨place, hchart⟩ := charted_compile h
  have hlawful : Lawful False a := g.lawful_compile False.elim h
  obtain ⟨before, ls, hk⟩ := (Timeline.kept_start hchart).performAll hchart hlawful hq
  obtain ⟨s, hconsume⟩ := hk.follows.consume_ofAutomaton hchart
  refine ⟨?_, congrArg Checkpoint.mk hk.boundary⟩
  simp only [Automaton.transcript, hk.ended, ok_bind, hconsume, hk.tokens, listing_shifted,
    Nat.zero_add, Timeline.base]
  rfl

/-- Calls on a queue of a grammar that compiles. -/
theorem Grammar.exists_replies (g : Grammar) (calls : List QueueCall)
    (h : (g.compile.result.toOption.bind fun a =>
      ((TokenQueue.start a).performAll calls).toOption).isSome) :
    ∃ a replies q, g.compile.result = .ok a ∧
      (TokenQueue.start a).performAll calls = .ok (replies, q) := by
  obtain ⟨⟨replies, q⟩, h⟩ := Option.isSome_iff_exists.1 h
  obtain ⟨a, ha, hq⟩ := Option.bind_eq_some_iff.1 h
  exact ⟨a, replies, q, eq_ok_of_toOption ha, eq_ok_of_toOption hq⟩

/-- Two segments, of which the first ends inside a run. -/
theorem Grammar.backlog_bracketed : ∃ a replies q, bracketed.compile.result = .ok a ∧
    (TokenQueue.start a).performAll [.feed "a;", .next, .reset "b<c" ⟨2⟩, .feed "+", .finish,
      .feed "<+>;", .next, .next] = .ok (replies, q) ∧
    let t := Timeline.extendAll {} [.feed "a;", .next, .reset "b<c" ⟨2⟩, .feed "+", .finish,
      .feed "<+>;", .next, .next] replies
    a.transcript t.start t.finished t.opened = .ok (t.taken ++ q.waiting) ∧
      q.save = ⟨t.boundary⟩ := by
  obtain ⟨a, replies, q, ha, hq⟩ := bracketed.exists_replies [.feed "a;", .next, .reset "b<c" ⟨2⟩,
    .feed "+", .finish, .feed "<+>;", .next, .next] (by decide +kernel)
  exact ⟨a, replies, q, ha, hq, backlog ha hq⟩

end TrieLexer
