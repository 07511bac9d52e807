import PredictiveParsing.FixedPoint
import PredictiveParsing.Grammar

/-! The nonterminals that derive the empty word. -/

namespace PredictiveParsing.Grammar

/-- Adds the nonterminals of the rules in order whose right-hand sides consist of members, each
rule seeing what those before it added.
-/
def nullablePass (g : Grammar) (null : ValueSet) : ValueSet :=
  g.rules.foldl (fun null r => if r.rhs.all null.has then null.insert r.lhs else null) null

def nullableSeed (g : Grammar) : ValueSet :=
  .ofList ((g.rules.filter Rule.isEmpty).map Rule.lhs)

/-- Repeats the pass from a set. Every pass but the last adds the nonterminal of a rule, so one
pass more than there are rules is enough.
-/
def settleNullable (g : Grammar) (null : ValueSet) : Settled ValueSet :=
  settle ValueSet.same g.nullablePass (g.rules.length + 1) null

/-- The nonterminals that derive the empty word. -/
def nullable (g : Grammar) : ValueSet :=
  (g.settleNullable g.nullableSeed).state

end PredictiveParsing.Grammar
