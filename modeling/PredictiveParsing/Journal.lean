import PredictiveParsing.Parser
import PredictiveParsing.Table.Display

/-! A journal of what the operations report while they work. An operation that fails keeps
what it has reported before.
-/

namespace PredictiveParsing

inductive Event where
  /-- The passes of this label came to their fixed point. -/
  | settled (label : Text) (passes : Nat)
  /-- A table was filled. -/
  | tableBuilt (cells : Nat)
  /-- A grammar has this conflict. -/
  | notLL1 (conflict : Conflict)
  /-- A parse ended behind so many tokens where this symbol was expected. -/
  | rejected (index : Nat) (expected : Symbol)
  /-- A rule took a cell from another rule. -/
  | overwritten (overwrite : Overwrite)

namespace Event

open Text (ofString)

/-- Taken cells are worth a warning; the other events tell of progress. -/
def isWarning : Event → Bool
  | .overwritten _ => true
  | _ => false

def message : Event → Except Fault Text
  | .settled label passes =>
      .ok (label ++ ofString " reached a fixed point after " ++ Text.natural passes
        ++ ofString " passes")
  | .tableBuilt cells =>
      .ok (ofString "built LL(1) table with " ++ Text.natural cells ++ ofString " cells")
  | .notLL1 conflict => do
      .ok (ofString "not LL(1): " ++ (← conflict.display))
  | .rejected index expected => do
      .ok (ofString "rejected at index " ++ Text.natural index ++ ofString ": expected "
        ++ (← expected.toValue.display))
  | .overwritten overwrite => overwrite.message

end Event

/-- A computation that reports events and may fail. -/
abbrev Journal (α : Type) := ExceptT Fault (StateM (List Event)) α

namespace Journal

open Text (ofString)

/-- Reports an event. An event that cannot be worded fails. -/
def report (event : Event) : Journal Unit := do
  let _ ← event.message
  modify (· ++ [event])

/-- Reports the number of passes, and goes on with the state that they lead to. -/
def settled {σ : Type} (label : String) (result : Settled σ) : Journal σ := do
  report (.settled (ofString label) result.passes)
  return result.state

/-- Reporting an event that can be worded appends it to the journal. -/
theorem run_report {event : Event} {text : Text} (h : event.message = .ok text)
    (events : List Event)
    : (report event).run.run events = (.ok (), events ++ [event]) := by
  simp only [report, h]
  rfl

/-- The nonterminals that derive the empty word. -/
def nullable (g : Grammar) : Journal ValueSet :=
  settled "_nullable_1" (g.settleNullable g.nullableSeed)

def first (g : Grammar) : Journal SetMap :=
  settled "_buildFirst1" (g.settleFirst g.firstSeed)

def follow (g : Grammar) (first : SetMap) (null : ValueSet) : Journal SetMap :=
  settled "_buildFollow1" (g.settleFollow null (g.followSeed first))

def predictor (g : Grammar) : Journal Predictor := do
  let null ← nullable g
  let first ← first g
  let follow ← follow g first null
  return ⟨g, null, first, follow⟩

/-- The computed sets are those of the grammar, whatever was reported before. -/
theorem run_predictor (g : Grammar) (events : List Event)
    : ((predictor g).run.run events).1 = .ok (Predictor.ofGrammar g) :=
  rfl

/-- What a computation gives, or what is computed where it gives nothing. -/
def givenOr {α : Type} (given : Journal (Option α)) (compute : Journal α) : Journal α := do
  match ← given with
  | some a => return a
  | none => compute

/-- The sets of a grammar where some are given. Only the missing ones are computed. One set is
settled before the next is asked for: the first sets, then the nonterminals that can vanish,
then the follow sets.
-/
def predictorFrom (g : Grammar) (first? follow? : Journal (Option SetMap))
    (null? : Journal (Option ValueSet)) : Journal Predictor := do
  let first ← givenOr first? (first g)
  let null ← givenOr null? (nullable g)
  let follow ← givenOr follow? (follow g first null)
  return ⟨g, null, first, follow⟩

def table (g : Grammar) (first follow : SetMap) : Journal Table := do
  let filling := Filling.ofGrammar g first follow
  filling.overwrites.forM fun overwrite => report (.overwritten overwrite)
  report (.tableBuilt filling.table.cellCount)
  return filling.table

/-- Whether a grammar has no conflicts. Sets that are not given are computed. -/
def isLL1 (g : Grammar) (first? follow? : Option SetMap) : Journal Bool := do
  let first ← givenOr (pure first?) (first g)
  let follow ← givenOr (pure follow?) do follow g first (← nullable g)
  let conflicts := g.conflicts first follow
  conflicts.forM fun conflict => report (.notLL1 conflict)
  return conflicts.isEmpty

def setCell (t : Table) (r : Rule) (lookahead : Value) : Journal Table := do
  let (t, overwrite?) ← t.setCell r lookahead
  overwrite?.forM fun overwrite => report (.overwritten overwrite)
  return t

def parser {τ : Type} (g : Grammar) (matcher : τ → Except Fault Value) : Journal (Parser τ) := do
  let p ← predictor g
  return ⟨g, ← table g p.first p.follow, matcher⟩

/-- Parses tokens in at most `fuel` steps, and reports a rejection. -/
def parse {τ : Type} (p : Parser τ) (fuel : Nat) (tokens : List τ)
    : Journal (Option (Finished τ)) := do
  let finished := p.parse fuel tokens
  if let some ⟨.rejected index expected _, _⟩ := finished then
    report (.rejected index expected)
  return finished

end Journal

end PredictiveParsing
