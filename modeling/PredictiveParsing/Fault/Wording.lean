import PredictiveParsing.Value.Display

/-! The wording of problems and faults. A problem names the values it is about, so wording it
can fail where one of them cannot be written; a rule or a grammar that cannot be made then fails
with that fault instead.
-/

namespace PredictiveParsing

open Text (ofString)

/-- The wording of a problem. Where several values are named, the first that cannot be
written decides.
-/
def Problem.message : Problem → Except Fault Text
  | .headNotNonterm lhs => do
      .ok (ofString "Rule lhs must be a NonTerm, got " ++ (← lhs.display))
  | .bodyNotSymbol lhs item => do
      let lhs ← lhs.display
      let item ← item.display
      .ok (ofString "Rule " ++ lhs ++ ofString " has non-symbol " ++ item
        ++ ofString " in its body")
  | .mixedEpsilon lhs => do
      .ok (ofString "Rule " ++ (← lhs.display) ++ ofString " mixes epsilon with other symbols")
  | .malformedNonterm value => do
      .ok (ofString "Malformed nonterminal " ++ (← value.display))
  | .malformedTerm value => do
      .ok (ofString "Terminal " ++ (← value.display)
        ++ ofString " is not a valid unicode terminal")
  | .notRule value => do
      .ok (ofString "Expected a Rule, got " ++ (← value.display))
  | .undeclaredHead lhs => do
      .ok ((← lhs.display) ++ ofString " is not a declared nonterminal")
  | .undeclaredSymbol symbol rule => do
      let symbol ← symbol.display
      let rule ← rule.display
      .ok (ofString "Invalid symbol " ++ symbol ++ ofString " in rule " ++ rule)
  | .undeclaredStart start => do
      .ok (ofString "Start symbol " ++ (← start.display)
        ++ ofString " is not a declared nonterminal")

/-- Fails with a problem, or with the fault that keeps it from being worded. -/
def Problem.refuse {α : Type} (problem : Problem) : Except Fault α :=
  match problem.message with
  | .ok _ => .error (.invalid problem)
  | .error fault => .error fault

/-- The wording of a fault. A key that is missing may be one that cannot be written. -/
def Fault.message : Fault → Except Fault Text
  | .invalid problem => problem.message
  | .notNonterm => .ok (ofString "Grammar rule lookup must use valid non-terminal")
  | .unhashable => .ok (ofString "unhashable type: '" ++ Kind.list.label ++ ofString "'")
  | .notIterable kind =>
      .ok (ofString "'" ++ kind.label ++ ofString "' object is not iterable")
  | .notSized kind =>
      .ok (ofString "object of type '" ++ kind.label ++ ofString "' has no len()")
  | .nameNotText kind =>
      .ok (ofString "__repr__ returned non-string (type " ++ kind.label ++ ofString ")")
  | .plainNotText kind =>
      .ok (ofString "__str__ returned non-string (type " ++ kind.label ++ ofString ")")
  | .headNotText .list => .ok (ofString "can only concatenate list (not \"str\") to list")
  | .headNotText .tuple => .ok (ofString "can only concatenate tuple (not \"str\") to tuple")
  | .headNotText kind =>
      .ok (ofString "unsupported operand type(s) for +: '" ++ kind.label
        ++ ofString "' and 'str'")
  | .missingPart kind part =>
      .ok (ofString "'" ++ kind.label ++ ofString "' object has no attribute '" ++ part
        ++ ofString "'")
  | .notOrdered left right =>
      .ok (ofString "'<' not supported between instances of '" ++ left.label
        ++ ofString "' and '" ++ right.label ++ ofString "'")
  | .missingKey key => key.display
  | .noTree => .ok (ofString "list index out of range")

end PredictiveParsing
