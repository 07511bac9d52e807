import PredictiveParsing.Fault
import PredictiveParsing.Text.Quoted

/-! How values are written. A nonterminal is written as its bare name and a terminal as its
name between quotation marks; neither is escaped. Texts outside of symbols are quoted.
-/

namespace PredictiveParsing.Value

open CodePoint

/-- The form of a value inside another text, from its written form: a text stands there
without marks. That a nonterminal has no such form is a fault of its own.
-/
def plainFrom (value : Value) (shown : Except Fault Text) : Except Fault Text :=
  match value with
  | .text content => .ok content
  | .nonterm (.text content) => .ok content
  | .nonterm name => .error (.plainNotText name.kind)
  | _ => shown

mutual

/-- The written form of a value. It fails where a nonterminal or the left-hand side of a rule
has a name that is not a text.
-/
def display : Value → Except Fault Text
  | .text content => .ok content.quoted
  | .int number => .ok (Text.integer number)
  | .bool truth => .ok (.ofString (if truth then "True" else "False"))
  | .null => .ok (.ofString "None")
  | .nonterm (.text content) => .ok content
  | .nonterm name => .error (.nameNotText name.kind)
  | .term name => do
      let shown ← name.plainFrom (display name)
      .ok (quotationMark :: shown ++ [quotationMark])
  | .epsilon => .ok [ofChar 'ε']
  | .endMark => .ok [ofChar '$']
  | .token sort content => do
      let sort ← display sort
      let content ← display content
      .ok (.ofString "Token(kind=" ++ sort ++ .ofString ", text=" ++ content ++ [ofChar ')'])
  | .list items => do
      let shown ← displayAll items
      .ok (ofChar '[' :: Text.join (.ofString ", ") shown ++ [ofChar ']'])
  | .tuple [item] => do
      let shown ← display item
      .ok (ofChar '(' :: shown ++ [ofChar ',', ofChar ')'])
  | .tuple items => do
      let shown ← displayAll items
      .ok (ofChar '(' :: Text.join (.ofString ", ") shown ++ [ofChar ')'])
  | .rule (.text content) [] => .ok (content ++ .ofString " := ε")
  | .rule (.text content) body => do
      let shown ← displayAll body
      .ok (Text.join [ofChar ' '] (content :: .ofString ":=" :: shown))
  | .rule head _ => .error (.headNotText head.kind)

/-- The written forms of the values of a list; the first that fails decides. -/
def displayAll : List Value → Except Fault (List Text)
  | [] => .ok []
  | item :: items => do
      let shown ← display item
      let rest ← displayAll items
      .ok (shown :: rest)

end

/-- The form of a value inside another text. -/
def plain (value : Value) : Except Fault Text :=
  value.plainFrom value.display

end PredictiveParsing.Value
