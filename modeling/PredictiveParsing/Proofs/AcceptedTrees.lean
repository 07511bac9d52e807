import PredictiveParsing.Parser.Matcher
import PredictiveParsing.Proofs.RuleChoice
import PredictiveParsing.Proofs.TreeBuilding
import PredictiveParsing.Tree.Validity

/-! What an accepted tree tells about any table, conflicts and later edits included: its leaves
are the tokens, and it is a derivation tree over the rules that the table holds, as long as
these are in the rows of their own nonterminals.
-/

namespace PredictiveParsing

namespace Table

def Holds (t : Table) (r : Rule) : Prop :=
  ∃ n la, t.cell? n la = some r

/-- A rule that a table holds stands in a cell of one of its rows. -/
theorem exists_mem_of_holds {t : Table} {r : Rule} (holds : t.Holds r)
    : ∃ row ∈ t.entries, ∃ cell ∈ row.2.entries, cell.2 = r := by
  obtain ⟨n, la, cell⟩ := holds
  obtain ⟨row, found, cell⟩ := Option.bind_eq_some_iff.mp cell
  obtain ⟨entry, member, _, rfl⟩ := ValueMap.exists_mem_of_get? found
  obtain ⟨inner, member', _, rfl⟩ := ValueMap.exists_mem_of_get? cell
  exact ⟨entry, member, inner, member', rfl⟩

/-- Every rule is in the row of its own nonterminal. -/
def KeepsHeads (t : Table) : Prop :=
  ∀ n la r, t.cell? n la = some r → r.lhs.key = n.key

/-- Enters rules one after another. What fails leaves the table as it is. -/
def setCells (t : Table) (edits : List (Rule × Value)) : Table :=
  edits.foldl
    (fun t edit =>
      match t.setCell edit.1 edit.2 with
      | .ok (next, _) => next
      | .error _ => t)
    t

/-- A rule that is entered goes into the row of its own nonterminal, so every rule still stands in
its own row.
-/
theorem KeepsHeads.put {t : Table} (keeps : t.KeepsHeads) (r : Rule) (la : Value)
    : (t.put r la).KeepsHeads := by
  intro n v s cell
  rw [cell?_put] at cell
  split at cell
  · rename_i here
    cases cell
    exact here.1
  · exact keeps n v s cell

/-- An edit that succeeds enters its rule and leaves the rest of the table as it is. -/
theorem eq_put_of_setCell {t next : Table} {r : Rule} {la : Value}
    {overwrite? : Option Overwrite} (h : t.setCell r la = .ok (next, overwrite?))
    : next = t.put r la := by
  obtain ⟨_, _, h⟩ := Fault.bind_eq_ok_iff.mp h
  split at h
  · obtain ⟨_, _, h⟩ := Fault.bind_eq_ok_iff.mp h
    split at h
    · cases h
      rfl
    · obtain ⟨_, _, h⟩ := Fault.bind_eq_ok_iff.mp h
      cases h
      rfl
  · cases h

/-- Edits keep every rule in its own row, by induction on them. One that fails changes nothing. -/
theorem KeepsHeads.setCells {t : Table} (keeps : t.KeepsHeads) (edits : List (Rule × Value))
    : (t.setCells edits).KeepsHeads := by
  apply foldl_invariant KeepsHeads _ keeps
  intro edit _ t keeps
  split
  · rename_i next overwrite? h
    rw [eq_put_of_setCell h]
    exact keeps.put edit.1 edit.2
  · exact keeps

end Table

/-- In a table that is filled from a grammar, every rule is in its own row. -/
theorem Grammar.keepsHeads_table (g : Grammar) (first follow : SetMap)
    : (g.table first follow).KeepsHeads :=
  fun _ _ _ cell => (rule_of_cell cell).2.1

/-- Trees that stand for symbols one by one stand for the row of them, by induction. -/
theorem Tree.validAll_of_forall₂ {τ : Type} {rules : Rule → Prop} {terminalOf : τ → Value}
    {symbols : List Symbol} {trees : List (Tree τ)}
    (all : List.Forall₂ (Valid rules terminalOf) symbols trees)
    : ValidAll rules terminalOf symbols trees := by
  induction all with
  | nil => exact .nil
  | cons head _ ih => exact .cons head ih

namespace Parser

variable {τ : Type}

/-- The terminal of a token. A token for which the matcher fails has none, which the null value
stands for.
-/
def terminalOf (p : Parser τ) (token : τ) : Value :=
  match p.matcher token with
  | .ok terminal => terminal
  | .error _ => .null

theorem builds_any (p : Parser τ) : p.Builds fun _ _ => True :=
  ⟨fun _ _ => trivial, fun _ _ => trivial, fun _ _ _ => trivial⟩

/-- A parser builds derivation trees over any set of rules that has all stored rules, each of
them stored for its own nonterminal.
-/
theorem builds_valid {p : Parser τ} {rules : Rule → Prop}
    (stored : ∀ {name r}, p.Stored name r → rules r ∧ r.lhs.key = (Value.nonterm name).key)
    : p.Builds (Tree.Valid rules p.terminalOf) := by
  have heads {name : Value} {r : Rule} (h : p.Stored name r) : r.head.key = name.key := by
    simpa [Rule.lhs, Value.key] using (stored h).2
  constructor
  · intro name focus token seen matched
    exact .leaf (by simpa [terminalOf, seen] using matched)
  · intro name r h empty
    exact .node (stored h).1 (heads h) rfl (empty ▸ .nil)
  · intro name r children h _ fitting
    exact .node (stored h).1 (heads h) (stored h).2 (Tree.validAll_of_forall₂ fitting)

/-- Where every rule is in its own row, the trees that a parser builds stand for their symbols by
the rules of the table.
-/
theorem builds_held {p : Parser τ} (keeps : p.table.KeepsHeads)
    : p.Builds (Tree.Valid p.table.Holds p.terminalOf) :=
  builds_valid fun ⟨la, cell⟩ => ⟨⟨_, la, cell⟩, keeps _ la _ cell⟩

/-- Acceptance is sound for any table: the leaves of the tree are the tokens, and with rules in
the rows of their own nonterminals, the tree has the start symbol at its root and is a
derivation tree over the rules of the table. Tables that are filled for a grammar and edited
later have their rules in the right rows.
-/
theorem accepted_tree (p : Parser τ) {tokens : List τ} {tree : Tree τ} {calls : Nat}
    (accepted : p.Returns tokens ⟨.accepted tree, calls⟩)
    : tree.frontier = tokens
      ∧ (p.table.KeepsHeads
        → (∃ children, tree = .node p.grammar.startSymbol.toValue children)
          ∧ Tree.Valid p.table.Holds p.terminalOf p.grammar.startSymbol tree)
      ∧ ∀ (g : Grammar) (first follow : SetMap) (edits : List (Rule × Value)),
          ((g.table first follow).setCells edits).KeepsHeads := by
  refine ⟨(p.builds_any.accepted accepted).2, fun keeps => ?_, fun g first follow edits => ?_⟩
  · obtain ⟨valid, _⟩ := (builds_held keeps).accepted accepted
    refine ⟨?_, valid⟩
    cases valid with
    | @node name symbol r children hr hname hsymbol below =>
        have root : symbol = p.grammar.startSymbol.toValue := Value.key_eq_nonterm_text.mp hsymbol
        exact ⟨children, by rw [root]⟩
  · exact (g.keepsHeads_table first follow).setCells edits

end Parser

/-- Balanced brackets: a pair of brackets around one and before another part, or nothing. -/
def Grammar.brackets : Grammar where
  nonterms := [.ofString "S"]
  terms := [.ofString "(", .ofString ")"]
  rules := [
    ⟨.text (.ofString "S"), [.term (.text (.ofString "(")), .nonterm (.text (.ofString "S")),
      .term (.text (.ofString ")")), .nonterm (.text (.ofString "S"))]⟩,
    ⟨.text (.ofString "S"), []⟩
  ]
  start := .ofString "S"
  nonterms_nodup := by decide
  terms_nodup := by decide
  nonterms_named := by decide
  terms_named := by decide
  rules_declared := by simp [Rule.Declared, Symbol.Declared]
  start_declared := by decide

/-- The table of brackets with one more rule, whose terminal is not declared. -/
def Table.extendedBrackets : Table :=
  Grammar.brackets.ownTable.setCells
    [(⟨.text (.ofString "S"), [.term (.text (.ofString "x"))]⟩, .term (.text (.ofString "x")))]

theorem accepted_tree_extendedBrackets
    : let p : Parser Value := ⟨.brackets, .extendedBrackets, Matcher.asTerm⟩
      let symbol : Value := .nonterm (.text (.ofString "S"))
      let open' : Value := .text (.ofString "(")
      let x : Value := .text (.ofString "x")
      let close : Value := .text (.ofString ")")
      let tree : Tree Value :=
        .node symbol [.leaf open', .node symbol [.leaf x], .leaf close, .node symbol []]
      p.Returns [open', x, close] ⟨.accepted tree, 5⟩
      ∧ p.table.KeepsHeads
      ∧ tree.frontier = [open', x, close]
      ∧ Tree.Valid p.table.Holds p.terminalOf (.nonterm (.text (.ofString "S"))) tree := by
  intro p symbol open' x close tree
  have returned : p.Returns [open', x, close] ⟨.accepted tree, 5⟩ := ⟨8, rfl⟩
  obtain ⟨leaves, valid, keeps⟩ := p.accepted_tree returned
  have kept : p.table.KeepsHeads := keeps _ _ _ _
  exact ⟨returned, kept, leaves, (valid kept).2⟩

end PredictiveParsing
