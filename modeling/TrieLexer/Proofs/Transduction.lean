import TrieLexer.Proofs.Fidelity
import TrieLexer.Scanner.Transducer

/-!
# Scans through a transducer

A scanner reads nothing of what it has given out. So a transducer on the way out changes the tokens
and nothing else: call by call it is given the tokens of the scanner without it, and the scanner
stands where it would stand without it.

## Main definitions

* `Report` — what is seen of a scanner at a call.
* `Scanner.reports`, `Scanner.reportsThrough` — the reports of a scanner, plain and through a
  transducer.
* `Transducer.run`, `Transducer.runEach` — what a transducer makes of tokens and of reports.

## Main results

* `Scanner.Reaches.perform_eq` — a call hands to any sink what it collects.
* `Transducer.foldl_sink` — the sink of a transducer holds what it makes of the tokens.
* `Grammar.transduction` — the reports through a transducer are what it makes of the plain ones.
-/

namespace TrieLexer

/-- What is seen of a scanner at a call: the tokens that it gives out, and where it stands then. -/
structure Report where
  tokens : List Token
  position : Nat
  pending : String
deriving DecidableEq, Repr, Inhabited

namespace Scanner

variable {σ : Type}

/-- The reports of a scanner on calls. -/
def reports (s : Scanner) : List Call → Except ScanFault (List Report)
  | [] => .ok []
  | call :: calls => do
    let (s, tokens) ← s.perform .collect #[] call
    let rest ← reports s calls
    return ⟨tokens.toList, s.position, s.pending⟩ :: rest

/-- The reports of a scanner whose tokens pass through a transducer. The state of the transducer is
carried on from call to call. -/
def reportsThrough (r : Transducer σ) (s : Scanner) (state : σ) :
    List Call → Except ScanFault (List Report)
  | [] => .ok []
  | call :: calls => do
    let (s, state, tokens) ← s.perform r.sink (state, #[]) call
    let rest ← reportsThrough r s state calls
    return ⟨tokens.toList, s.position, s.pending⟩ :: rest

end Scanner

namespace Transducer

variable {σ : Type} (r : Transducer σ)

/-- Applies the rule to tokens one after the other. The results are kept apart. -/
def run (state : σ) : List Token → List (List Token) × σ
  | [] => ([], state)
  | token :: tokens =>
    let (results, state) := r.step state token
    let (rest, state) := run state tokens
    (results :: rest, state)

/-- Reports whose tokens have been replaced by the results that are not empty. -/
def runEach (state : σ) : List Report → List Report
  | [] => []
  | report :: reports =>
    let (results, state) := r.run state report.tokens
    { report with tokens := results.flatten.filter (!·.value.isEmpty) } :: runEach state reports

/-- The sink ends in the state of the rule and holds its results, but for the empty ones. -/
theorem foldl_sink (state : σ) (out : Array Token) (tokens : List Token) :
    tokens.foldl r.sink (state, out) = ((r.run state tokens).2,
      out ++ ((r.run state tokens).1.flatten.filter (!·.value.isEmpty)).toArray) := by
  induction tokens generalizing state out with
  | nil => simp [run]
  | cons token tokens ih =>
    rw [List.foldl_cons, sink, ih, Prod.mk.injEq, ← Array.toList_inj]
    simp [run]

end Transducer

namespace Scanner.Reaches

variable {τ : Type} {lexicon : Lexicon} {matchers : List (GreedyMatcher Compilation)}
  {place : NodeId → Locus} {s s' : Scanner} {r : Reading} {position : Nat} {tokens : Array Token}

/-- A scan hands to any sink the tokens that it collects. -/
theorem handle_fold (hs : s.Reaches place r position)
    (h : Charted lexicon matchers s.automaton place) (sink : Sink τ) (out : τ) (input : Input) :
    s.handle sink out input =
      (fun z => (z.1, z.2.toList.foldl sink out)) <$> s.handle .collect #[] input := by
  rw [hs.handle_eq h, hs.handle_eq h]
  cases r.take s.automaton s.automaton.inner input with
  | error e => rfl
  | ok x => simp only [map_ok, Reading.deliverAt, foldl_collect, List.nil_append]

/-- A call hands to any sink the tokens that it collects. -/
theorem perform_fold (hs : s.Reaches place r position)
    (h : Charted lexicon matchers s.automaton place) (sink : Sink τ) (out : τ) (call : Call) :
    s.perform sink out call =
      (fun z => (z.1, z.2.toList.foldl sink out)) <$> s.perform .collect #[] call := by
  cases call with
  | consume chunk => exact hs.handle_fold h sink out _
  | flush => exact hs.handle_fold h sink out _
  | reset start => rfl
  | tokenize input =>
    have hreset := hs.reset h 0
    change (s.reset 0).handle sink out (.chunk input) >>= (fun z => z.1.handle sink z.2 .done) =
      _ <$> ((s.reset 0).handle .collect #[] (.chunk input) >>=
        fun z => z.1.handle .collect z.2 .done)
    rw [hreset.handle_fold h]
    cases hfront : (s.reset 0).handle .collect #[] (.chunk input) with
    | error e => rfl
    | ok z =>
      obtain ⟨_, _, -, ha, hs', -⟩ := hreset.handle h hfront
      have hchart : Charted lexicon matchers z.1.automaton place := ha ▸ h
      rw [map_ok, ok_bind, ok_bind, hs'.handle_fold hchart sink,
        hs'.handle_fold hchart .collect z.2]
      cases z.1.handle .collect #[] .done with
      | error e => rfl
      | ok w => simp only [map_ok, foldl_collect, List.foldl_append]

/-- Call by call, a transducer is given the tokens of the plain scanner and changes nothing else. -/
theorem reportsThrough_eq {σ : Type} (t : Transducer σ) (hs : s.Reaches place r position)
    (h : Charted lexicon matchers s.automaton place) (state : σ) (calls : List Call) :
    s.reportsThrough t state calls = t.runEach state <$> s.reports calls := by
  induction calls generalizing s r position state with
  | nil => rfl
  | cons call calls ih =>
    rw [reportsThrough, reports, hs.perform_fold h]
    cases hcall : s.perform .collect #[] call with
    | error e => rfl
    | ok z =>
      obtain ⟨ha, _, _, hs', -⟩ := hs.perform_keeps h (fun _ => True) (fun _ => trivial)
        (fun _ _ _ => trivial) trivial hcall
      rw [map_ok, ok_bind, ok_bind, t.foldl_sink]
      dsimp only
      rw [ih hs' (ha ▸ h)]
      cases z.1.reports calls with
      | error e => rfl
      | ok reports => simp [Transducer.runEach]

end Scanner.Reaches

/-- A scanner whose tokens pass through a transducer gives out, at each call, what the transducer
makes of the tokens of the scanner without it, each taken once and in order and the empty results
dropped. After each call its position and its pending text are those of the scanner without it. -/
theorem Grammar.transduction {g : Grammar} {a : Automaton} (h : g.compile.result = .ok a)
    {σ : Type} (r : Transducer σ) (state : σ) (calls : List Call) :
    (Scanner.ofAutomaton a).reportsThrough r state calls =
      r.runEach state <$> (Scanner.ofAutomaton a).reports calls := by
  obtain ⟨place, hchart⟩ := charted_compile h
  exact (Scanner.reaches_ofAutomaton hchart).reportsThrough_eq r hchart state calls

/-- A run with an inner scan is taken apart by chunks. The count goes on after a reset. -/
theorem Grammar.transduction_bracketed : ∃ a reports, bracketed.compile.result = .ok a ∧
    (Scanner.ofAutomaton a).reports [.consume ";<+", .consume ">", .reset 1, .consume ";"] =
      .ok reports ∧
    (Scanner.ofAutomaton a).reportsThrough .count 0
        [.consume ";<+", .consume ">", .reset 1, .consume ";"] =
      .ok (Transducer.count.runEach 0 reports) ∧
    (Transducer.count.runEach 0 reports).map (·.tokens.map (·.kind)) =
      [["semicolon#1"], ["bracketed#2", "PUNCTUATION#3", "bracketed#4"], [], ["semicolon#5"]] := by
  have hreports : (bracketed.compile.result.toOption.bind fun a =>
      ((Scanner.ofAutomaton a).reports
        [.consume ";<+", .consume ">", .reset 1, .consume ";"]).toOption) =
      some [⟨[⟨";", "semicolon", 0⟩], 1, "<+"⟩,
        ⟨[⟨"<", "bracketed", 1⟩, ⟨"+", "PUNCTUATION", 2⟩, ⟨">", "bracketed", 3⟩], 4, ""⟩,
        ⟨[], 1, ""⟩, ⟨[⟨";", "semicolon", 1⟩], 2, ""⟩] := by decide +kernel
  obtain ⟨a, ha, hreports⟩ := Option.bind_eq_some_iff.1 hreports
  have hplain := eq_ok_of_toOption hreports
  refine ⟨a, _, eq_ok_of_toOption ha, hplain, ?_, by decide⟩
  rw [transduction (eq_ok_of_toOption ha), hplain, map_ok]

end TrieLexer
