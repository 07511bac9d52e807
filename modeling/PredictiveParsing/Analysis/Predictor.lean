import PredictiveParsing.Analysis.Follow
import PredictiveParsing.Analysis.Nullable

/-! Directing sets: the lookaheads for which a rule is chosen. -/

namespace PredictiveParsing

/-- The lookaheads that choose a rule: those with which its body begins, and, if the body can
vanish, those that follow its nonterminal.
-/
def Rule.directingSet (first follow : SetMap) (r : Rule) : ValueSet :=
  let begins := first.firstOf r.word
  if begins.has .epsilon then (begins.erase .epsilon).union (follow.setOf r.lhs) else begins

/-- A grammar with the sets that choose its rules. -/
structure Predictor where
  grammar : Grammar
  null : ValueSet
  first : SetMap
  follow : SetMap

namespace Predictor

def ofGrammar (g : Grammar) : Predictor where
  grammar := g
  null := g.nullable
  first := g.first
  follow := g.follow g.first g.nullable

/-- The directing set of any rule, provided that the values that are looked up can be. The
nonterminal of the rule is only looked up if its body can vanish.
-/
def select (p : Predictor) (r : Rule) : Except Fault ValueSet := do
  let begins ← p.first.firstOfValue (.tuple r.word)
  if begins.has .epsilon then r.lhs.checkHashable
  .ok (r.directingSet p.first p.follow)

/-- Whether a lookahead chooses a rule. -/
def testSelect (p : Predictor) (lookahead : Value) (r : Rule) : Except Fault Bool := do
  (← p.select r).check lookahead

end Predictor

end PredictiveParsing
