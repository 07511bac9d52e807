import PredictiveParsing.Analysis.First

/-! Follow sets: the terminals that can stand behind a nonterminal, and the end mark where it
can stand last.
-/

namespace PredictiveParsing.Grammar

/-- Adds to the follow set of every nonterminal of a body the terminals with which the rest of
the body behind it begins.
-/
def followSeedBody (first : SetMap) : List Symbol → SetMap → SetMap
  | [], follow => follow
  | .nonterm name :: rest, follow =>
      followSeedBody first rest
        (follow.addAll (.nonterm name)
          ((first.firstOf (rest.map Symbol.toValue)).erase .epsilon))
  | _ :: rest, follow => followSeedBody first rest follow

/-- The follow sets with which the passes begin: the end mark for the start symbol, and what
stands behind the nonterminals inside the bodies.
-/
def followSeed (g : Grammar) (first : SetMap) : SetMap :=
  g.rules.foldl (fun follow r => followSeedBody first r.body follow)
    (g.emptySets.addAll g.startSymbol.toValue (.singleton .endMark))

/-- The nonterminals of a body behind which it can vanish. -/
def lastNonterms (null : ValueSet) : List Symbol → List Value
  | [] => []
  | .nonterm name :: rest =>
      if rest.all fun s => null.has s.toValue then
        .nonterm name :: lastNonterms null rest
      else
        lastNonterms null rest
  | _ :: rest => lastNonterms null rest

/-- Adds the follow set of the nonterminal of a rule to those of the nonterminals behind which
its body can vanish.
-/
def followRule (null : ValueSet) (follow : SetMap) (r : Rule) : SetMap :=
  (lastNonterms null r.body).foldl (fun follow n => follow.addAll n (follow.setOf r.lhs)) follow

/-- Takes the rules in order, each seeing what those before it added. -/
def followPass (g : Grammar) (null : ValueSet) (follow : SetMap) : SetMap :=
  g.rules.foldl (followRule null) follow

/-- Repeats the pass from a map. Every pass but the last adds a value of some set to another
set.
-/
def settleFollow (g : Grammar) (null : ValueSet) (follow : SetMap) : Settled SetMap :=
  settle SetMap.same (g.followPass null)
    ((follow.size + g.firstRange) * follow.total + 1) follow

/-- The follow set of every nonterminal, from first sets and a set of nonterminals that can
vanish.
-/
def follow (g : Grammar) (first : SetMap) (null : ValueSet) : SetMap :=
  (g.settleFollow null (g.followSeed first)).state

end PredictiveParsing.Grammar
