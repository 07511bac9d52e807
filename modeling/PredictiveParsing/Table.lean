import PredictiveParsing.Analysis.Predictor

/-! Prediction tables: for a nonterminal and a lookahead, the rule to be chosen. Rules are
entered in the order of their declaration, and the last one in a cell keeps it.
-/

namespace PredictiveParsing

/-- The cells of one nonterminal: the rule of each lookahead. -/
abbrev Row := ValueMap Rule

/-- The rows of the nonterminals. -/
abbrev Table := ValueMap Row

/-- A rule has taken the cell of a different rule. -/
structure Overwrite where
  nonterm : Value
  lookahead : Value
  new : Rule
  old : Rule

def Overwrite.message (o : Overwrite) : Except Fault Text := do
  let nonterm ← o.nonterm.display
  let lookahead ← o.lookahead.display
  let new ← o.new.display
  let old ← o.old.display
  .ok (.ofString "LL(1) conflict on (" ++ nonterm ++ .ofString ", " ++ lookahead
    ++ .ofString "): " ++ new ++ .ofString " replaces " ++ old)

namespace Table

def cell? (t : Table) (nonterm lookahead : Value) : Option Rule :=
  (t.get? nonterm).bind fun row => row.get? lookahead

/-- Enters a rule for a lookahead in the row of its nonterminal. -/
def put (t : Table) (r : Rule) (lookahead : Value) : Table :=
  t.insert r.lhs (((t.get? r.lhs).getD ∅).insert lookahead r)

/-- What entering a rule for a lookahead replaces, if that is a different rule. -/
def overwrite? (t : Table) (r : Rule) (lookahead : Value) : Option Overwrite :=
  match t.cell? r.lhs lookahead with
  | some old => if r.same old then none else some ⟨r.lhs, lookahead, r, old⟩
  | none => none

/-- Enters any rule for any lookahead, and gives what it replaces. The table has to have a row
for the rule's nonterminal already, and what is replaced has to be worded; otherwise nothing
is entered.
-/
def setCell (t : Table) (r : Rule) (lookahead : Value)
    : Except Fault (Table × Option Overwrite) := do
  r.lhs.checkHashable
  if t.hasKey r.lhs then
    lookahead.checkHashable
    match t.overwrite? r lookahead with
    | none => .ok (t.put r lookahead, none)
    | some overwrite => do
        let _ ← overwrite.message
        .ok (t.put r lookahead, some overwrite)
  else
    .error (.missingKey r.lhs)

def cellCount (t : Table) : Nat :=
  t.entries.foldr (fun entry n => entry.2.size + n) 0

/-- Two tables are the same when they have the same rows with rules that count as one. -/
def same (t u : Table) : Bool :=
  ValueMap.same (ValueMap.same Rule.same) t u

end Table

-----------------------------------------------------------------------------------------
-- Filling a table
-----------------------------------------------------------------------------------------

/-- The lookaheads for which a rule is entered: first those with which its body begins, then,
if the body can vanish, those that follow its nonterminal.
-/
def Rule.lookaheads (first follow : SetMap) (r : Rule) : List Value :=
  let begins := first.firstOf r.word
  (begins.erase .epsilon).items
    ++ if begins.has .epsilon then (follow.setOf r.lhs).items else []

/-- A table that is being filled, and the cells that were taken from other rules so far. -/
structure Filling where
  table : Table
  overwrites : List Overwrite

namespace Filling

def put (r : Rule) (f : Filling) (lookahead : Value) : Filling where
  table := f.table.put r lookahead
  overwrites := f.overwrites ++ (f.table.overwrite? r lookahead).toList

def putRule (first follow : SetMap) (f : Filling) (r : Rule) : Filling :=
  (r.lookaheads first follow).foldl (put r) f

/-- The table without cells, with a row for every nonterminal. -/
def start (g : Grammar) : Filling :=
  ⟨.ofList (g.nontermValues.map fun n => (n, ∅)), []⟩

/-- Enters all rules of a grammar in the order of their declaration. -/
def ofGrammar (g : Grammar) (first follow : SetMap) : Filling :=
  g.rules.foldl (putRule first follow) (start g)

end Filling

def Grammar.table (g : Grammar) (first follow : SetMap) : Table :=
  (Filling.ofGrammar g first follow).table

end PredictiveParsing
