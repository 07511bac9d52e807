import PredictiveParsing.ValueMap

/-! Matchers: ways to tell which terminal a token belongs to. -/

namespace PredictiveParsing.Matcher

/-- A terminal stands for itself, and any other token is the name of its terminal. -/
def asTerm (token : Value) : Except Fault Value :=
  .ok token.asTerm

/-- The terminal that is named by the sort of the token. -/
def bySort : Value → Except Fault Value
  | .token sort _ => .ok (.term sort)
  | value => .error (.missingPart value.kind (.ofString "kind"))

def identity (token : Value) : Except Fault Value :=
  .ok token

/-- One terminal for all numerals and one for all words, both of ASCII; otherwise the token is
the name of its terminal.
-/
def byClass : Value → Except Fault Value
  | .text content =>
      if !content.isEmpty && content.all CodePoint.isDigit then
        .ok (.term (.text (.ofString "digit")))
      else if !content.isEmpty && content.all CodePoint.isLetter then
        .ok (.term (.text (.ofString "alpha")))
      else
        asTerm (.text content)
  | value => asTerm value

def byMap (m : ValueMap Value) (token : Value) : Except Fault Value := do
  token.checkHashable
  match m.get? token with
  | some value => .ok value
  | none => .error (.missingKey token)

end PredictiveParsing.Matcher
