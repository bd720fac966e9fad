import TrieLexer.Scanner.Basic

/-!
# Transducers of tokens

Tokens may be changed on their way out. A transducer turns each token into any number of tokens and
keeps a state of its own; results with an empty value are dropped.

## Main definitions

* `Transducer` — a stateful rule for tokens.
* `Transducer.sink` — the sink that applies the rule and collects the results.
* `Transducer.count` — a rule with a state.
-/

namespace TrieLexer

/-- A stateful rule that turns a token into tokens. -/
structure Transducer (σ : Type) where
  start : σ
  step : σ → Token → List Token × σ

namespace Transducer

variable {σ : Type}

/-- Applies the rule to each token and collects the results that are not empty. -/
def sink (r : Transducer σ) : Sink (σ × Array Token)
  | (state, out), token =>
    let (results, state) := r.step state token
    (state, out ++ results.filter (!·.value.isEmpty))

/-- Types numbered by the order in which the tokens come. -/
def count : Transducer Nat :=
  ⟨0, fun seen token =>
    ([{ token with kind := token.kind ++ "#" ++ toString (seen + 1) }], seen + 1)⟩

end Transducer

end TrieLexer
