import PredictiveParsing.Analysis.Predictor

/-! Conflicts: pairs of rules of one nonterminal that some lookahead chooses both. A grammar
without conflicts is LL(1).
-/

namespace PredictiveParsing

/-- Two rules of a nonterminal and the lookaheads that choose both of them. -/
structure Conflict where
  nonterm : Value
  first : Rule
  second : Rule
  lookaheads : ValueSet

/-- The pairs of elements of a list, the earlier element first, in order. -/
def pairs {α : Type} : List α → List (α × α)
  | [] => []
  | a :: as => as.map (fun b => (a, b)) ++ pairs as

namespace Grammar

/-- The names of the nonterminals that have rules, in the order of their first rules. -/
def heads (g : Grammar) : List Value :=
  (ValueSet.ofList (g.rules.map Rule.head)).items

/-- The conflict of two rules, if some lookahead chooses both. -/
def conflict? (first follow : SetMap) (pair : Rule × Rule) : Option Conflict :=
  let common :=
    (pair.1.directingSet first follow).inter (pair.2.directingSet first follow)
  if common.items.isEmpty then none else some ⟨pair.1.lhs, pair.1, pair.2, common⟩

def conflictsOf (g : Grammar) (first follow : SetMap) (head : Value) : List Conflict :=
  (pairs (g.rules.filter fun r => decide (r.head.key = head.key))).filterMap
    (conflict? first follow)

/-- All conflicts: nonterminal by nonterminal in the order of their first rules, and for each
of them the pairs of its rules in the order of declaration.
-/
def conflicts (g : Grammar) (first follow : SetMap) : List Conflict :=
  g.heads.flatMap (g.conflictsOf first follow)

def hasNoConflict (g : Grammar) (first follow : SetMap) : Bool :=
  (g.conflicts first follow).isEmpty

/-- The LL(1) property, by the grammar's own first and follow sets. -/
def isLL1 (g : Grammar) : Bool :=
  g.hasNoConflict g.first (g.follow g.first g.nullable)

end Grammar

end PredictiveParsing
