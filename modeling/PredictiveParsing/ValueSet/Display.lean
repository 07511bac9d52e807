import PredictiveParsing.Value.Display
import PredictiveParsing.Value.Order
import PredictiveParsing.ValueMap

/-! Sets and maps as plain data: elements in their written form, or by their names, in ascending
order.
-/

namespace PredictiveParsing

/-- The written forms of the elements, in ascending order. -/
def ValueSet.outline (s : ValueSet) : Except Fault (List Text) := do
  .ok (Text.sort (← Value.displayAll s.items))

/-- The names of the elements, in ascending order. -/
def ValueSet.names (s : ValueSet) : Except Fault (List Value) := do
  Value.sort (← s.items.mapM Value.nameOf)

/-- The name of every key with the written forms of its set. Where keys have names that count as
one, the last set stands.
-/
def SetMap.outline (m : SetMap) : Except Fault (ValueMap (List Text)) := do
  let entries ← m.entries.mapM fun entry => do
    let name ← entry.1.nameOf
    let shown ← entry.2.outline
    .ok (name, shown)
  .ok (.ofList entries)

end PredictiveParsing
