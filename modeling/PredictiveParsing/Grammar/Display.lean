import PredictiveParsing.Grammar
import PredictiveParsing.Value.Display

/-! How grammars are written, and their outline as plain data. -/

namespace PredictiveParsing.Grammar

open Text (ofString)

/-- A grammar as plain data: names in ascending order, rules in the order of declaration. -/
structure Outline where
  start : Text
  nonterms : List Text
  terms : List Text
  rules : List Text
  deriving DecidableEq

def outline (g : Grammar) : Except Fault Outline := do
  let rules ← g.rules.mapM Rule.display
  .ok {
    start := g.start
    nonterms := Text.sort g.nonterms
    terms := Text.sort g.terms
    rules
  }

/-- The written form of a grammar: its start symbol, and one line for every rule. -/
def display (g : Grammar) : Except Fault Text := do
  let rules ← g.rules.mapM Rule.display
  let lines := rules.flatMap fun rule => ofString "  " ++ rule ++ ofString "\n"
  .ok (ofString "Grammar(\n  start = " ++ g.start ++ ofString ",\n" ++ lines ++ ofString ")")

end PredictiveParsing.Grammar
