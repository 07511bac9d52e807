import PredictiveParsing.Table
import PredictiveParsing.Table.Conflict
import PredictiveParsing.ValueSet.Display

/-! How conflicts are written, and tables as plain data. -/

namespace PredictiveParsing

open Text (ofString)

/-- The written forms of the rules of a row, by those of the lookaheads. Where lookaheads are
written alike, the last rule stands.
-/
def Row.outline (row : Row) : Except Fault (ValueMap Text) := do
  let cells ← row.entries.mapM fun entry => do
    let lookahead ← entry.1.display
    let rule ← entry.2.display
    .ok (Value.text lookahead, rule)
  .ok (.ofList cells)

/-- The name of every row with its outline. -/
def Table.outline (t : Table) : Except Fault (ValueMap (ValueMap Text)) := do
  let rows ← t.entries.mapM fun entry => do
    let name ← entry.1.nameOf
    let row ← Row.outline entry.2
    .ok (name, row)
  .ok (.ofList rows)

def Conflict.display (c : Conflict) : Except Fault Text := do
  let lookaheads ← c.lookaheads.outline
  let nonterm ← c.nonterm.display
  let first ← c.first.display
  let second ← c.second.display
  .ok (nonterm ++ ofString ": \x7b" ++ Text.join (ofString ", ") lookaheads
    ++ ofString "\x7d selects both (" ++ first ++ ofString ") and (" ++ second ++ ofString ")")

end PredictiveParsing
