import PredictiveParsing.Proofs.RuleSubsets

/-! The values of the computed sets. A first set has declared terminals and the mark of the empty
word, a follow set has declared terminals and the end mark, and so all lookaheads of rules are
declared terminals or the end mark.
-/

namespace PredictiveParsing.Grammar

variable {g : Grammar}

def HasTerm (g : Grammar) (v : Value) : Prop :=
  ∃ t ∈ g.terms, v = .term (.text t)

def HasLookahead (g : Grammar) (v : Value) : Prop :=
  g.HasTerm v ∨ v = .endMark

theorem HasLookahead.hashable {v : Value} (known : g.HasLookahead v) : v.hashable = true := by
  rcases known with ⟨t, _, rfl⟩ | rfl <;> rfl

theorem HasLookahead.exists_display {v : Value} (known : g.HasLookahead v)
    : ∃ shown, v.display = .ok shown := by
  rcases known with ⟨t, _, rfl⟩ | rfl <;> exact ⟨_, rfl⟩

/-- What begins a derivation of a declared symbol is a declared terminal, by induction on how it
does.
-/
theorem Begins.hasTerm {s : Symbol} {v : Value} (begins : g.Begins s v)
    (declared : s.Declared g.nonterms g.terms)
    : g.HasTerm v := by
  induction begins with
  | term name =>
      obtain ⟨t, ht, rfl⟩ := declared
      exact ⟨t, ht, rfl⟩
  | rule member split _ _ ih => exact ih ((g.rules_declared _ member).2 _ (by simp [split]))

/-- A first set has declared terminals and the mark of the empty word. -/
theorem hasTerm_of_has_first {k v : Value} (found : (g.first.setOf k).has v = true)
    : g.HasTerm v ∨ v = .epsilon := by
  obtain ⟨n, declared, rfl⟩ := exists_nonterm_of_has g.keys_first found
  rcases g.explained_first _ v found with ⟨mark, _⟩ | begins
  · exact Or.inr mark
  · exact Or.inl (Begins.hasTerm begins ⟨n, declared, rfl⟩)

/-- Apart from the mark of the empty word, the first set of declared symbols has declared terminals
only.
-/
theorem hasTerm_of_has_firstOf {word : List Symbol}
    (declared : ∀ s ∈ word, s.Declared g.nonterms g.terms) {v : Value} (proper : v ≠ .epsilon)
    (found : (g.first.firstOf (word.map Symbol.toValue)).has v = true)
    : g.HasTerm v := by
  obtain ⟨before, s, after, rfl, _, begins⟩ :=
    g.explained_first.begins_of_firstOf declared proper found
  exact Begins.hasTerm begins (declared s (by simp))

/-- What the rules put behind a nonterminal is a declared terminal or the end mark, by induction on
how it comes there.
-/
theorem PutsBehind.hasLookahead {null : ValueSet} {name v : Value}
    (behind : g.PutsBehind g.first null name v)
    : g.HasLookahead v := by
  induction behind with
  | start => exact Or.inr rfl
  | @next r before after name v member split proper begins =>
      have declared : ∀ s ∈ after, s.Declared g.nonterms g.terms := fun s hs =>
        (g.rules_declared r member).2 s (by simp [split, hs])
      exact Or.inl (hasTerm_of_has_firstOf declared proper begins)
  | last _ _ _ _ ih => exact ih

/-- A follow set has declared terminals and the end mark only, by the reasons for its values. -/
theorem hasLookahead_of_has_follow {null : ValueSet} {k v : Value}
    (found : ((g.follow g.first null).setOf k).has v = true)
    : g.HasLookahead v := by
  obtain ⟨n, _, rfl⟩ := exists_nonterm_of_has (g.keys_follow g.first null) found
  exact PutsBehind.hasLookahead (has_follow_iff_putsBehind.mp found)

/-- What is in the directing set of a rule is a declared terminal or the end mark. -/
theorem hasLookahead_of_directed {null : ValueSet} {r : Rule} (member : r ∈ g.rules) {v : Value}
    (directed : (r.directingSet g.first (g.follow g.first null)).has v = true)
    : g.HasLookahead v := by
  rcases Rule.has_directingSet.mp directed with ⟨proper, begins⟩ | ⟨_, behind⟩
  · exact Or.inl (hasTerm_of_has_firstOf (g.rules_declared r member).2 proper begins)
  · exact hasLookahead_of_has_follow behind

end PredictiveParsing.Grammar
