import PredictiveParsing.Fault.Wording
import PredictiveParsing.ValueSet

/-! Symbols and rules. A rule's body is a sequence of symbols; the empty rule has the empty
one and is written with the mark of the empty word.
-/

namespace PredictiveParsing

inductive Symbol where
  | nonterm (name : Value)
  | term (name : Value)
  | endMark
  deriving DecidableEq

namespace Symbol

def toValue : Symbol → Value
  | .nonterm name => .nonterm name
  | .term name => .term name
  | .endMark => .endMark

/-- The symbol that a value is. The mark of the empty word is not one of a body's symbols. -/
def ofValue? : Value → Option Symbol
  | .nonterm name => some (.nonterm name)
  | .term name => some (.term name)
  | .endMark => some .endMark
  | _ => none

/-- A symbol is read back from its value, by cases. -/
@[simp] theorem ofValue?_toValue (s : Symbol) : ofValue? s.toValue = some s := by
  cases s <;> rfl

/-- A symbol is determined by its value, since it is read back from it. -/
theorem toValue_injective {s t : Symbol} (h : s.toValue = t.toValue) : s = t := by
  simpa using congrArg ofValue? h

/-- The representative of all symbols that count as one. -/
def key : Symbol → Symbol
  | .nonterm name => .nonterm name.key
  | .term name => .term name.key
  | .endMark => .endMark

/-- Representatives of symbols are those of their values, by cases. -/
@[simp] theorem key_toValue (s : Symbol) : s.key.toValue = s.toValue.key := by
  cases s <;> simp [key, toValue, Value.key]

end Symbol

/-- A rule: the name of its nonterminal, and the symbols that may take its place. -/
structure Rule where
  head : Value
  body : List Symbol
  deriving DecidableEq

namespace Rule

/-- The nonterminal of a rule. -/
def symbol (r : Rule) : Symbol :=
  .nonterm r.head

def lhs (r : Rule) : Value :=
  .nonterm r.head

def word (r : Rule) : List Value :=
  r.body.map Symbol.toValue

/-- The right-hand side as it is written: an empty one shows the mark of the empty word. -/
def rhs (r : Rule) : List Value :=
  if r.body.isEmpty then [.epsilon] else r.word

theorem rhs_of_nonempty {r : Rule} (nonempty : r.body ≠ []) : r.rhs = r.word := by
  simp [rhs, nonempty]

def isEmpty (r : Rule) : Bool :=
  r.body.isEmpty

/-- The length of the right-hand side as it is written. -/
def length (r : Rule) : Nat :=
  r.rhs.length

def toValue (r : Rule) : Value :=
  .rule r.head r.word

def ofValue? : Value → Option Rule
  | .rule head body => (body.mapM Symbol.ofValue?).map fun body => ⟨head, body⟩
  | _ => none

/-- The representative of all rules that count as one. -/
def key (r : Rule) : Rule :=
  ⟨r.head.key, r.body.map Symbol.key⟩

/-- Two rules count as one when their symbols do. -/
def same (r s : Rule) : Bool :=
  decide (r.key = s.key)

def display (r : Rule) : Except Fault Text :=
  r.toValue.display

/-- The rule of a left-hand side and the values of a right-hand side. The first problem found
decides: a left-hand side that is no nonterminal, an element that is no symbol, the mark of
the empty word beside other symbols.
-/
def ofParts (lhs : Value) (rhs : List Value) : Except Fault Rule := do
  let .nonterm head := lhs
    | (Problem.headNotNonterm lhs).refuse
  if let some item := rhs.find? fun item => !item.isSymbol then
    (Problem.bodyNotSymbol lhs item).refuse
  else if 1 < rhs.length && rhs.contains .epsilon then
    (Problem.mixedEpsilon lhs).refuse
  else
    .ok ⟨head, rhs.filterMap Symbol.ofValue?⟩

/-- The rule of a left-hand side and a right-hand side that need not have elements. The
right-hand side is asked for its length first, and for its elements unless that is 0.
-/
def ofValues (lhs rhs : Value) : Except Fault Rule := do
  if (← rhs.length) = 0 then ofParts lhs [] else ofParts lhs (← rhs.elements)

/-- The symbols of a body are read back from their values, by induction. -/
theorem mapM_ofValue?_toValue (body : List Symbol)
    : (body.map Symbol.toValue).mapM Symbol.ofValue? = some body := by
  induction body with
  | nil => rfl
  | cons s body ih => simp [List.mapM_cons, ih]

/-- A rule is read back from its value. -/
@[simp] theorem ofValue?_toValue (r : Rule) : ofValue? r.toValue = some r := by
  rw [toValue, ofValue?, word, mapM_ofValue?_toValue]
  rfl

end Rule

end PredictiveParsing
