import PredictiveParsing.Value

/-! The causes for which an operation fails. A parser that rejects its input has not failed.
-/

namespace PredictiveParsing

/-- What is wrong with the parts from which a rule or a grammar is to be made. -/
inductive Problem where
  /-- The left-hand side of a rule is no nonterminal. -/
  | headNotNonterm (lhs : Value)
  /-- The body of a rule holds a value that is no symbol. -/
  | bodyNotSymbol (lhs item : Value)
  /-- The body of a rule holds the empty word beside other symbols. -/
  | mixedEpsilon (lhs : Value)
  /-- A declared nonterminal is none, or has a malformed name. -/
  | malformedNonterm (value : Value)
  /-- A declared terminal is none, or has a malformed name. -/
  | malformedTerm (value : Value)
  /-- A value among the rules is no rule. -/
  | notRule (value : Value)
  /-- The nonterminal of a rule is not declared. -/
  | undeclaredHead (lhs : Value)
  /-- The body of a rule holds a symbol that is not declared. -/
  | undeclaredSymbol (symbol rule : Value)
  /-- The start symbol is no declared nonterminal. -/
  | undeclaredStart (start : Value)
  deriving DecidableEq, Inhabited

inductive Fault where
  /-- A rule or a grammar cannot be made. -/
  | invalid (problem : Problem)
  /-- The rules of something other than a nonterminal are asked for. -/
  | notNonterm
  /-- A value that holds a list is to be an element of a set or a key of a map. -/
  | unhashable
  /-- A value of this kind has no elements to go through. -/
  | notIterable (kind : Kind)
  /-- A value of this kind has no length. -/
  | notSized (kind : Kind)
  /-- A nonterminal is to be written whose name is not a text, but of this kind. -/
  | nameNotText (kind : Kind)
  /-- A nonterminal is to stand in a text whose name is not a text, but of this kind. -/
  | plainNotText (kind : Kind)
  /-- A rule is to be written whose left-hand side has a name of this kind. -/
  | headNotText (kind : Kind)
  /-- A value of this kind lacks the part that is asked for. -/
  | missingPart (kind : Kind) (part : Text)
  /-- A value of the first kind is to be put in order with one of the second. -/
  | notOrdered (left right : Kind)
  /-- A map has no entry for a key. -/
  | missingKey (key : Value)
  /-- An end mark is reached at the end of the input before a tree is complete. -/
  | noTree
  deriving DecidableEq, Inhabited

/-- A computation that succeeds has succeeded in each part. -/
theorem Fault.bind_eq_ok_iff {α β : Type} {x : Except Fault α} {f : α → Except Fault β} {b : β}
    : (x >>= f) = .ok b ↔ ∃ a, x = .ok a ∧ f a = .ok b := by
  cases x <;> simp [bind, Except.bind]

namespace Value

/-- The elements of a value that has them, a text having its code points. -/
def elements : Value → Except Fault (List Value)
  | .list items | .tuple items => .ok items
  | .text content => .ok (content.map fun c => .text [c])
  | value => .error (.notIterable value.kind)

/-- The length of a value that has one. The body of an empty rule has length 1, since it
holds the empty word.
-/
def length : Value → Except Fault Nat
  | .list items | .tuple items => .ok items.length
  | .text content => .ok content.length
  | .rule _ body => .ok (max 1 body.length)
  | value => .error (.notSized value.kind)

def nameOf : Value → Except Fault Value
  | .nonterm name | .term name => .ok name
  | value => .error (.missingPart value.kind (.ofString "name"))

/-- A value that is to be an element of a set or a key of a map, if it can be one. -/
def checkHashable (value : Value) : Except Fault Unit :=
  if value.hashable then .ok () else .error .unhashable

end Value

end PredictiveParsing
