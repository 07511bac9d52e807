import PredictiveParsing.Proofs.DerivationTrees
import PredictiveParsing.Proofs.FaultlessRuns
import PredictiveParsing.Proofs.RuleChoice

/-! The parser of a grammar without conflicts, for a matcher that never fails and gives values
that can be looked up: a nonterminal on top of the stack takes the one rule that the next token
selects.
-/

namespace PredictiveParsing

variable {τ : Type}

/-- The parser of a grammar with a matcher that never fails. -/
def Parser.ofTotal (g : Grammar) (terminalOf : τ → Value) : Parser τ :=
  .ofGrammar g fun token => .ok (terminalOf token)

namespace Parser

variable {g : Grammar} {terminalOf : τ → Value}

/-- The lookahead never fails: it is the terminal of the next token, or the end mark. -/
theorem lookahead_ofTotal (g : Grammar) (terminalOf : τ → Value) (tokens : List τ)
    : (ofTotal g terminalOf).lookahead tokens = .ok (nextOf terminalOf tokens) := by
  cases tokens <;> rfl

theorem eq_nextOf_of_lookahead {tokens : List τ} {focus : Value}
    (seen : (ofTotal g terminalOf).lookahead tokens = .ok focus)
    : focus = nextOf terminalOf tokens :=
  Except.ok.inj (seen.symm.trans (lookahead_ofTotal g terminalOf tokens))

theorem hashable_nextOf (hashable : ∀ token, (terminalOf token).hashable = true)
    (tokens : List τ)
    : (nextOf terminalOf tokens).hashable = true := by
  cases tokens with
  | nil => rfl
  | cons token rest => exact hashable token

/-- The rule that the next token selects is the one that the parser chooses. -/
theorem choose_of_selects (ll1 : g.isLL1 = true)
    (hashable : ∀ token, (terminalOf token).hashable = true) {r : Rule} (member : r ∈ g.rules)
    {tokens : List τ} (selected : g.Selects r (nextOf terminalOf tokens))
    : (ofTotal g terminalOf).choose (.nonterm r.head) (nextOf terminalOf tokens)
      = .ok (some r) := by
  have declared : r.symbol.Declared g.nonterms g.terms := (g.rules_declared r member).1
  have named : r.symbol.toValue.hashable = true := declared.hashable
  have chosen := choose_eq_cell (p := ofTotal g terminalOf) named
    (hashable_nextOf hashable tokens)
  exact chosen.trans (congrArg Except.ok (Grammar.cell_of_selects ll1 member selected))

section Selected

variable {r : Rule} {s : State τ} {below : List Symbol} (ll1 : g.isLL1 = true)
  (hashable : ∀ token, (terminalOf token).hashable = true) (member : r ∈ g.rules)
  (stack : s.stack = r.symbol :: below) (selected : g.Selects r (nextOf terminalOf s.rest))

include ll1 hashable member stack selected

/-- An empty rule that the next token selects is taken off the stack, and its node is handed on. -/
theorem erase_of_selects (empty : r.body = [])
    : (ofTotal g terminalOf).Move s (s.asked.attach below (.node r.lhs [])) :=
  .erase stack (lookahead_ofTotal g terminalOf s.rest)
    (choose_of_selects ll1 hashable member selected) empty

/-- A rule with symbols in its body that the next token selects has them put on the stack. -/
theorem expand_of_selects (nonempty : r.body ≠ [])
    : (ofTotal g terminalOf).Move s (s.asked.expand below r) :=
  .expand stack (lookahead_ofTotal g terminalOf s.rest)
    (choose_of_selects ll1 hashable member selected) nonempty

end Selected

/-- A stored rule is a rule of the grammar for the nonterminal of its row. -/
theorem rule_of_stored {name : Value} {r : Rule} (stored : (ofTotal g terminalOf).Stored name r)
    : r ∈ g.rules ∧ r.symbol = .nonterm name := by
  obtain ⟨_, cell⟩ := stored
  obtain ⟨member, row, _⟩ := Grammar.rule_of_ownTable cell
  exact ⟨member, Grammar.symbol_eq_of_key member row⟩

/-- What the parser chooses is a rule of the nonterminal that the next token selects. -/
theorem selects_of_choose {name : Value} {tokens : List τ} {r : Rule}
    (chosen : (ofTotal g terminalOf).choose (.nonterm name) (nextOf terminalOf tokens)
      = .ok (some r))
    : r ∈ g.rules ∧ r.symbol = .nonterm name ∧ g.Selects r (nextOf terminalOf tokens) := by
  obtain ⟨member, row, selected⟩ := Grammar.rule_of_ownTable (cell_of_choose chosen)
  exact ⟨member, Grammar.symbol_eq_of_key member row, selected⟩

end Parser

end PredictiveParsing
