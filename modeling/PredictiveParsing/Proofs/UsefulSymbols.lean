import PredictiveParsing.Proofs.LeftmostDerivations

/-! Nonterminals that take part in the words of a grammar: they occur in what the start symbol
derives, and derive words of terminals themselves.
-/

namespace PredictiveParsing.Grammar

variable {g : Grammar}

/-- Every declared nonterminal occurs in something that the start symbol derives. -/
def Reachable (g : Grammar) : Prop :=
  ∀ n ∈ g.nonterms,
    ∃ front rest, g.Derives [g.startSymbol] (front ++ .nonterm (.text n) :: rest)

/-- Every declared nonterminal derives a word of terminals. -/
def Productive (g : Grammar) : Prop :=
  ∀ n ∈ g.nonterms, ∃ word, TerminalWord word ∧ g.Derives [.nonterm (.text n)] word

/-- Declared symbols derive a word of terminals, by induction on the symbols. -/
theorem Productive.exists_word (productive : g.Productive) {symbols : List Symbol}
    (declared : ∀ s ∈ symbols, s.Declared g.nonterms g.terms)
    : ∃ word, TerminalWord word ∧ g.Derives symbols word := by
  induction symbols with
  | nil => exact ⟨[], by simp [TerminalWord], .refl _⟩
  | cons s symbols ih =>
      rw [List.forall_mem_cons] at declared
      have first : ∃ word, TerminalWord word ∧ g.Derives [s] word := by
        cases s with
        | nonterm name =>
            obtain ⟨n, member, rfl⟩ := declared.1
            exact productive n member
        | term name => exact ⟨[.term name], by simp [TerminalWord], .refl _⟩
        | endMark => exact False.elim declared.1
      obtain ⟨word, terminal, derives⟩ := first
      obtain ⟨more, terminal', derives'⟩ := ih declared.2
      exact ⟨word ++ more, terminal.append terminal', derives.append derives'⟩

/-- Declared symbols derive declared symbols only, by induction on the derivation. -/
theorem Derives.declared {symbols word : List Symbol} (derives : g.Derives symbols word)
    (declared : ∀ s ∈ symbols, s.Declared g.nonterms g.terms)
    : ∀ s ∈ word, s.Declared g.nonterms g.terms := by
  induction derives with
  | refl => exact declared
  | @step r before after word member _ ih =>
      apply ih
      intro s hs
      simp only [List.mem_append] at hs
      rcases hs with (front | body) | behind
      · exact declared s (by simp [front])
      · exact (g.rules_declared r member).2 s body
      · exact declared s (by simp [behind])

/-- What derives a word with a terminal in front derives a word of terminals with it in front. -/
theorem Productive.exists_word_cons (productive : g.Productive) {word rest : List Symbol}
    (declared : ∀ s ∈ word, s.Declared g.nonterms g.terms) {t : Value}
    (derives : g.Derives word (.term t :: rest))
    : ∃ more, TerminalWord (.term t :: more) ∧ g.Derives word (.term t :: more) := by
  have declared' := Derives.declared derives declared
  obtain ⟨more, terminal, later⟩ :=
    productive.exists_word fun s hs => declared' s (List.mem_cons_of_mem _ hs)
  refine ⟨more, ?_, derives.trans (.behind later [] (.term t))⟩
  exact List.forall_mem_cons.mpr ⟨⟨t, rfl⟩, terminal⟩

/-- Symbols that the start symbol derives are declared. -/
theorem Derives.declared_of_start {word : List Symbol} (derives : g.Derives [g.startSymbol] word)
    : ∀ s ∈ word, s.Declared g.nonterms g.terms :=
  Derives.declared derives (List.forall_mem_singleton.mpr g.start_isDeclared)

/-- A symbol that the start symbol derives is reached in leftmost order: everything before it
derives terminals, and the steps behind it wait.
-/
theorem Productive.exists_leftDerives (productive : g.Productive) {front rest : List Symbol}
    {s : Symbol} (derives : g.Derives [g.startSymbol] (front ++ s :: rest))
    : ∃ read early,
        TerminalWord read
        ∧ g.LeftDerives [g.startSymbol] (read ++ s :: early)
        ∧ g.Derives early rest := by
  have declared := Derives.declared_of_start derives
  obtain ⟨read, terminal, spelled⟩ :=
    productive.exists_word fun x hx => declared x (List.mem_append_left _ hx)
  have whole := derives.trans (Derives.append spelled (.refl (s :: rest)))
  obtain ⟨early, left, later⟩ := whole.exists_leftDerives_cons terminal
  exact ⟨read, early, terminal, left, later⟩

end PredictiveParsing.Grammar
