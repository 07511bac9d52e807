import PredictiveParsing.Proofs.RuleSubsets
import PredictiveParsing.Proofs.TableCells

/-! Grammars with the same symbols and the same rules, in another order or with repetitions. The
computed sets have the same values. For a permutation of the rules without conflicts, the tables
have the same cells, so that every parse goes the same way.
-/

namespace PredictiveParsing

-----------------------------------------------------------------------------------------
-- Parsers whose tables have the same cells
-----------------------------------------------------------------------------------------

namespace Parser

variable {τ : Type} {p q : Parser τ} (matcher : p.matcher = q.matcher)
  (cells : ∀ n la, p.table.cell? n la = q.table.cell? n la)

include matcher cells

/-- A step asks the matcher for a token and the table for a cell, and nothing else. -/
theorem step_congr (s : State τ) : p.step s = q.step s := by
  have seen (tokens : List τ) : p.lookahead tokens = q.lookahead tokens := by
    cases tokens with
    | nil => rfl
    | cons token rest => exact congrFun matcher token
  have chosen (n la : Value) : p.choose n la = q.choose n la := by
    rw [choose, choose, cells]
  simp only [step, stepNonterm, seen, chosen]

theorem run_congr (fuel : Nat) (s : State τ) : p.run fuel s = q.run fuel s := by
  induction fuel generalizing s with
  | zero => rfl
  | succ fuel ih =>
      rw [run, run, step_congr matcher cells]
      cases q.step s with
      | halt outcome calls => rfl
      | next s => exact ih s

/-- Parses are the same if they have the same start symbol, since their runs are. -/
theorem parse_congr (start : p.grammar.start = q.grammar.start) (fuel : Nat) (tokens : List τ)
    : p.parse fuel tokens = q.parse fuel tokens := by
  rw [parse, parse, Grammar.startSymbol, start]
  exact run_congr matcher cells fuel _

end Parser

/-- The same first and follow sets give the same directing sets. -/
theorem Rule.directingSet_same {first first' follow follow' : SetMap}
    (hf : SetMap.same first first' = true) (hw : SetMap.same follow follow' = true) (r : Rule)
    : (r.directingSet first follow).same (r.directingSet first' follow') = true := by
  obtain ⟨_, smaller, larger⟩ := SetMap.same_iff.mp hf
  obtain ⟨_, less, more⟩ := SetMap.same_iff.mp hw
  exact ValueSet.same_iff_le.mpr ⟨r.directingSet_mono smaller less, r.directingSet_mono larger more⟩

/-- Predictors with the same sets select the same lookaheads for a rule, or none for the same
reason.
-/
theorem Predictor.select_same {p q : Predictor} (hf : SetMap.same p.first q.first = true)
    (hw : SetMap.same p.follow q.follow = true) (r : Rule)
    : (∃ s t, p.select r = .ok s ∧ q.select r = .ok t ∧ s.same t = true)
      ∨ ∃ fault, p.select r = .error fault ∧ q.select r = .error fault := by
  obtain ⟨_, smaller, larger⟩ := SetMap.same_iff.mp hf
  by_cases selectable : r.Selectable p.first
  · exact Or.inl ⟨_, _, select_of_selectable selectable,
      select_of_selectable (selectable.anti larger), r.directingSet_same hf hw⟩
  · exact Or.inr ⟨_, select_of_not_selectable selectable,
      select_of_not_selectable fun other => selectable (other.anti smaller)⟩

namespace Grammar

variable {g h : Grammar}

-----------------------------------------------------------------------------------------
-- Sets computed from the same rules
-----------------------------------------------------------------------------------------

namespace SameSymbols

variable {β : Type} (symbols : g.SameSymbols h)

include symbols

theorem hasKey_eq {m n : ValueMap β} (keys : m.keys = g.nontermValues)
    (keys' : n.keys = h.nontermValues) (k : Value)
    : m.hasKey k = n.hasKey k := by
  rw [Bool.eq_iff_iff, ValueMap.hasKey_iff_keys, ValueMap.hasKey_iff_keys, keys, keys']
  simp [nontermValues, symbols.nonterms]

variable (rules : ∀ r, r ∈ g.rules ↔ r ∈ h.rules)

include rules

/-- The first sets depend on which rules there are, not on their order. -/
theorem first_same : SetMap.same g.first h.first = true :=
  SetMap.same_iff.mpr ⟨symbols.hasKey_eq g.keys_first h.keys_first,
    first_le_of_subset fun r => (rules r).mp, first_le_of_subset fun r => (rules r).mpr⟩

/-- The follow sets depend on which rules there are, and on the values of the given sets. -/
theorem follow_same {first first' : SetMap} {null null' : ValueSet}
    (hf : SetMap.same first first' = true) (hn : null.same null' = true)
    : SetMap.same (g.follow first null) (h.follow first' null') = true := by
  obtain ⟨_, smaller, larger⟩ := SetMap.same_iff.mp hf
  obtain ⟨less, more⟩ := ValueSet.same_iff_le.mp hn
  exact SetMap.same_iff.mpr ⟨symbols.hasKey_eq (g.keys_follow _ _) (h.keys_follow _ _),
    follow_le_of_subset (fun r => (rules r).mp) symbols.start smaller less,
    follow_le_of_subset (fun r => (rules r).mpr) symbols.start.symm larger more⟩

end SameSymbols

theorem nullable_same (rules : ∀ r, r ∈ g.rules ↔ r ∈ h.rules)
    : g.nullable.same h.nullable = true :=
  ValueSet.same_iff_le.mpr ⟨nullable_le_of_subset fun r => (rules r).mp,
    nullable_le_of_subset fun r => (rules r).mpr⟩

-----------------------------------------------------------------------------------------
-- Tables filled with a permutation of the rules
-----------------------------------------------------------------------------------------

section Permutation

variable {first first' follow follow' : SetMap} (perm : g.rules.Perm h.rules)
  (hf : SetMap.same first first' = true) (hw : SetMap.same follow follow' = true)

include perm hf hw

/-- Whether there are conflicts does not depend on the order of the rules. -/
theorem hasNoConflict_eq_of_perm : g.hasNoConflict first follow = h.hasNoConflict first' follow' := by
  obtain ⟨_, smaller, larger⟩ := SetMap.same_iff.mp hf
  obtain ⟨_, less, more⟩ := SetMap.same_iff.mp hw
  rw [Bool.eq_iff_iff]
  exact ⟨hasNoConflict_of_subperm larger more perm.symm.subperm,
    hasNoConflict_of_subperm smaller less perm.subperm⟩

variable (none : g.hasNoConflict first follow = true) {f f' : Filling}
  (enters : Filling.Enters first follow g.rules (.start g) f)
  (enters' : Filling.Enters first' follow' h.rules (.start h) f')

include none enters enters'

/-- Without conflicts, the rule of a cell is the one that has the lookahead in its directing set,
wherever it stands among the others.
-/
theorem cell?_eq_of_perm (n la : Value) : f.table.cell? n la = f'.table.cell? n la := by
  have none' : h.hasNoConflict first' follow' = true := by
    rw [← hasNoConflict_eq_of_perm perm hf hw, none]
  refine Option.ext fun r => ?_
  rw [cell?_of_enters enters, cell?_of_enters enters', cell_iff_directed none,
    cell_iff_directed none', perm.mem_iff, ValueSet.same_iff.mp (r.directingSet_same hf hw)]

/-- Without conflicts, the table does not depend on the order of the rules. -/
theorem table_same_of_perm (symbols : g.SameSymbols h) : f.table.same f'.table = true :=
  Table.same_of_cells (symbols.hasKey_eq (keys_of_enters enters) (keys_of_enters enters'))
    (cell?_eq_of_perm perm hf hw none enters enters')

end Permutation

/-- For the same symbols and the same rules in any order and with any repetitions, the same
nonterminals can vanish, the first and follow sets are the same, the latter also from given ones
that are the same, and so are the directing sets of all rules. If the rules are a permutation of
one another, either both grammars have conflicts or none has any. Without conflicts, the tables
are the same in whatever order each rule is entered for its lookaheads, and every parse goes the
same way.
-/
theorem analysis_of_same_rules {g h : Grammar} (symbols : g.SameSymbols h)
    (rules : ∀ r, r ∈ g.rules ↔ r ∈ h.rules)
    : let p := Predictor.ofGrammar g
      let q := Predictor.ofGrammar h
      p.null.same q.null = true
      ∧ SetMap.same p.first q.first = true
      ∧ SetMap.same p.follow q.follow = true
      ∧ (∀ first first' null null',
          SetMap.same first first' = true
          → ValueSet.same null null' = true
          → SetMap.same (g.follow first null) (h.follow first' null') = true)
      ∧ (∀ r,
          (∃ s t, p.select r = .ok s ∧ q.select r = .ok t ∧ s.same t = true)
          ∨ ∃ fault, p.select r = .error fault ∧ q.select r = .error fault)
      ∧ (g.rules.Perm h.rules
        → (∀ first first' follow follow',
            SetMap.same first first' = true
            → SetMap.same follow follow' = true
            → g.hasNoConflict first follow = h.hasNoConflict first' follow'
              ∧ (g.hasNoConflict first follow = true
                → ∀ f f',
                  Filling.Enters first follow g.rules (.start g) f
                  → Filling.Enters first' follow' h.rules (.start h) f'
                  → f.table.same f'.table = true
                    ∧ ∀ (τ : Type) (matcher : τ → Except Fault Value) fuel tokens,
                        Parser.parse ⟨g, f.table, matcher⟩ fuel tokens
                        = Parser.parse ⟨h, f'.table, matcher⟩ fuel tokens))
          ∧ g.isLL1 = h.isLL1
          ∧ (g.isLL1 = true
            → ∀ (τ : Type) (matcher : τ → Except Fault Value) fuel tokens,
                (Parser.ofGrammar g matcher).parse fuel tokens
                = (Parser.ofGrammar h matcher).parse fuel tokens)) := by
  intro p q
  have null : p.null.same q.null = true := nullable_same rules
  have first : SetMap.same p.first q.first = true := symbols.first_same rules
  have follow : SetMap.same p.follow q.follow = true := symbols.follow_same rules first null
  refine ⟨null, first, follow, fun _ _ _ _ hf hn => symbols.follow_same rules hf hn,
    Predictor.select_same first follow, fun perm => ⟨fun _ _ _ _ hf hw => ?_, ?_, fun ll1 => ?_⟩⟩
  · refine ⟨hasNoConflict_eq_of_perm perm hf hw, fun none f f' enters enters' => ⟨?_, ?_⟩⟩
    · exact table_same_of_perm perm hf hw none enters enters' symbols
    · exact fun τ matcher => Parser.parse_congr rfl
        (cell?_eq_of_perm perm hf hw none enters enters') symbols.start
  · exact hasNoConflict_eq_of_perm perm first follow
  · exact fun τ matcher => Parser.parse_congr rfl
      (cell?_eq_of_perm perm first follow ll1 (g.enters_ofGrammar _ _) (h.enters_ofGrammar _ _))
      symbols.start

/-- Brackets with the rules in the other order. -/
def reversedBrackets : Grammar where
  nonterms := brackets.nonterms
  terms := brackets.terms
  rules := brackets.rules.reverse
  start := brackets.start
  nonterms_nodup := brackets.nonterms_nodup
  terms_nodup := brackets.terms_nodup
  nonterms_named := brackets.nonterms_named
  terms_named := brackets.terms_named
  rules_declared := fun r member => brackets.rules_declared r (List.mem_reverse.mp member)
  start_declared := brackets.start_declared

theorem analysis_of_same_rules_reversedBrackets
    : let p := Predictor.ofGrammar brackets
      let q := Predictor.ofGrammar reversedBrackets
      let null := ValueSet.singleton (.nonterm (.text (.ofString "S")))
      let tokens : List Value := [.text (.ofString "("), .text (.ofString ")")]
      brackets.SameSymbols reversedBrackets
      ∧ (∀ r, r ∈ brackets.rules ↔ r ∈ reversedBrackets.rules)
      ∧ SetMap.same ∅ ∅ = true
      ∧ null.same q.null = true
      ∧ SetMap.same (brackets.follow ∅ null) (reversedBrackets.follow ∅ q.null) = true
      ∧ brackets.rules.Perm reversedBrackets.rules
      ∧ brackets.isLL1 = true
      ∧ reversedBrackets.isLL1 = true
      ∧ (brackets.table p.first p.follow).same (reversedBrackets.table q.first q.follow) = true
      ∧ (Parser.ofGrammar brackets Matcher.asTerm).parse 8 tokens
        = (Parser.ofGrammar reversedBrackets Matcher.asTerm).parse 8 tokens := by
  intro p q null tokens
  have symbols : brackets.SameSymbols reversedBrackets := ⟨fun _ => .rfl, fun _ => .rfl, rfl⟩
  have rules (r : Rule) : r ∈ brackets.rules ↔ r ∈ reversedBrackets.rules :=
    List.mem_reverse.symm
  have perm : brackets.rules.Perm reversedBrackets.rules := (List.reverse_perm _).symm
  have ll1 : brackets.isLL1 = true := by decide
  have equal : null.same q.null = true := by decide
  obtain ⟨_, first, follow, given, _, permuted⟩ := analysis_of_same_rules symbols rules
  obtain ⟨tables, answer, parses⟩ := permuted perm
  have filled := (tables _ _ _ _ first follow).2 ll1 _ _ (brackets.enters_ofGrammar _ _)
    (reversedBrackets.enters_ofGrammar _ _)
  exact ⟨symbols, rules, rfl, equal, given _ _ _ _ rfl equal, perm, ll1, answer ▸ ll1, filled.1,
    parses ll1 _ _ _ _⟩

end Grammar

end PredictiveParsing
