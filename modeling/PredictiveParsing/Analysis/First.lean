import PredictiveParsing.FixedPoint
import PredictiveParsing.Grammar
import PredictiveParsing.ValueMap

/-! First sets: the terminals with which the words of a symbol sequence begin. The mark of the
empty word is a member when the sequence derives the empty word.
-/

namespace PredictiveParsing

/-- Continues the concatenation of first sets: while the set so far holds the mark of the empty
word, the next set takes the place of the mark.
-/
def ValueSet.ringAdd (s t : ValueSet) : ValueSet :=
  if s.has .epsilon then (s.erase .epsilon).union t else s

/-- The first set of a concatenation, from the first sets of its parts. -/
def ValueSet.ringSum : List ValueSet → ValueSet
  | [] => .singleton .epsilon
  | s :: sets => sets.foldl ringAdd s

/-- A value other than the mark comes from the set so far, or from the next set if the set so
far holds the mark; the mark itself has to be in both.
-/
theorem ValueSet.has_ringAdd (s t : ValueSet) (v : Value)
    : (s.ringAdd t).has v
      = if v.key = .epsilon then s.has .epsilon && t.has .epsilon
        else s.has v || (s.has .epsilon && t.has v) := by
  have heps : v.key = .epsilon → ∀ u : ValueSet, u.has v = u.has .epsilon :=
    fun h u => u.has_congr h
  unfold ringAdd
  by_cases hs : s.has .epsilon = true <;> by_cases hv : v.key = .epsilon
  · simp [hs, hv, heps hv, Value.key]
  · simp [hs, hv, Value.key]
  · simp [hs, hv, heps hv]
  · simp [hs, hv]

/-- The concatenation of first sets given as values. A value is only looked at while the set so
far holds the mark of the empty word.
-/
def ValueSet.ringAddAll (s : ValueSet) : List Value → Except Fault ValueSet
  | [] => .ok s
  | value :: values =>
      if s.has .epsilon then do
        let t ← ofValue value
        ((s.erase .epsilon).union t).ringAddAll values
      else
        .ok s

/-- The first set of a concatenation, from the first sets of its parts given as values. -/
def ValueSet.ringSumOfValues : List Value → Except Fault ValueSet
  | [] => .ok (.singleton .epsilon)
  | value :: values => do
      let s ← ofValue value
      s.ringAddAll values

namespace SetMap

/-- The first set of one symbol: what the map has for a nonterminal, and the value itself for
any other.
-/
def firstOfSymbol (first : SetMap) : Value → ValueSet
  | .nonterm name => first.setOf (.nonterm name)
  | value => .singleton value

def firstOf (first : SetMap) (word : List Value) : ValueSet :=
  .ringSum (word.map first.firstOfSymbol)

/-- The first set of the elements of a value, all of which have to be fit for a set. -/
def firstOfValue (first : SetMap) (word : Value) : Except Fault ValueSet := do
  let items ← word.elements
  if Value.allHashable items then .ok (first.firstOf items) else .error .unhashable

end SetMap

namespace Grammar

def emptySets (g : Grammar) : SetMap :=
  .ofList (g.nontermValues.map fun n => (n, ∅))

/-- What a rule's first set is known to hold at the start: the mark of the empty word for an
empty rule, and the terminal that begins the body.
-/
def firstSeedOf (r : Rule) : ValueSet :=
  match r.body with
  | [] => .singleton .epsilon
  | .term name :: _ => .singleton (.term name)
  | _ => ∅

def firstSeed (g : Grammar) : SetMap :=
  g.rules.foldl (fun first r => first.addAll r.lhs (firstSeedOf r)) g.emptySets

/-- Adds the first sets of the bodies of the rules in order to those of their nonterminals,
each rule seeing what those before it added. Empty rules are left out.
-/
def firstPass (g : Grammar) (first : SetMap) : SetMap :=
  g.rules.foldl
    (fun first r => if r.isEmpty then first else first.addAll r.lhs (first.firstOf r.word))
    first

/-- The number of values that the first sets can come to hold beyond those of a map: the
symbols of the bodies and the mark of the empty word.
-/
def firstRange (g : Grammar) : Nat :=
  g.rules.foldr (fun r n => r.body.length + n) 1

/-- Repeats the pass from a map. Every pass but the last adds a value to some set. -/
def settleFirst (g : Grammar) (first : SetMap) : Settled SetMap :=
  settle SetMap.same g.firstPass
    ((first.size + g.rules.length) * (first.total + g.firstRange) + 1) first

def first (g : Grammar) : SetMap :=
  (g.settleFirst g.firstSeed).state

end Grammar

end PredictiveParsing
