import PredictiveParsing.Tree

/-! How parse trees over values are written, and their outline as plain data. -/

namespace PredictiveParsing

open CodePoint Text

/-- The written form of a token at a leaf. A terminal is shown by its name alone. -/
def Value.displayToken : Value → Except Fault Text
  | .term name => name.display
  | value => value.display

/-- A parse tree as plain data: tokens in their written form, symbols by their names. -/
inductive Outline where
  | token (shown : Text)
  | symbol (name : Value) (children : List Outline)

namespace Tree

mutual

/-- The written form of a tree: a leaf's token, or a node's name and the trees below it in
parentheses.
-/
def display : Tree Value → Except Fault Text
  | .leaf token => token.displayToken
  | .node symbol children => do
      let name ← symbol.nameOf
      let name ← name.plain
      let shown ← displayAll children
      .ok (name ++ ofChar '(' :: join [ofChar ' '] shown ++ [ofChar ')'])

/-- The written forms of several trees; the first that fails decides. -/
def displayAll : List (Tree Value) → Except Fault (List Text)
  | [] => .ok []
  | tree :: trees => do
      let shown ← tree.display
      let rest ← displayAll trees
      .ok (shown :: rest)

end

mutual

def outline : Tree Value → Except Fault Outline
  | .leaf token => do
      .ok (.token (← token.displayToken))
  | .node symbol children => do
      let name ← symbol.nameOf
      let below ← outlineAll children
      .ok (.symbol name below)

/-- The outlines of several trees; the first that fails decides. -/
def outlineAll : List (Tree Value) → Except Fault (List Outline)
  | [] => .ok []
  | tree :: trees => do
      let shown ← tree.outline
      let rest ← outlineAll trees
      .ok (shown :: rest)

end

end Tree

end PredictiveParsing
