import PredictiveParsing.Proofs.EmptyDerivations
import PredictiveParsing.Proofs.Lookaheads

/-! The computed first set of a word has exactly the terminals that begin what the word derives,
and the mark of the empty word if it derives the empty word.
-/

namespace PredictiveParsing

section Trees

variable {rules : Rule → Prop}

/-- A word that begins with symbols that vanish derives what the next symbol derives, with the
rest behind it.
-/
theorem Derives.behind_vanishing {before : List Symbol} (erased : ∀ x ∈ before, Vanishes rules x)
    {s : Symbol} {word : List Symbol} (derives : Derives rules [s] word) (after : List Symbol)
    : Derives rules (before ++ s :: after) (word ++ after) := by
  have front : Derives rules before [] := derives_nil_iff.mpr erased
  simpa using (front.append derives).append (.refl after)

/-- What begins a symbol is a terminal, and stands first in some word that the symbol derives, by
induction on how it begins.
-/
theorem Begins.derives {s : Symbol} {v : Value} (begins : Begins rules s v)
    : ∃ name rest, v = .term name ∧ Derives rules [s] (.term name :: rest) := by
  induction begins with
  | term name => exact ⟨name, [], rfl, .refl _⟩
  | @rule r before after s v hr split erased _ ih =>
      obtain ⟨name, rest, same, derives⟩ := ih
      have body := Derives.behind_vanishing erased derives after
      rw [← split] at body
      exact ⟨name, rest ++ after, same, (Derives.of_rule hr).trans body⟩

end Trees

namespace Grammar

/-- A lookahead of what a word derives is a lookahead of the word, by induction on the
derivation: a rule leads wherever its body does.
-/
theorem leads_of_derives {g : Grammar} {word result : List Symbol}
    (derives : g.Derives word result) {behind : Value → Prop} {v : Value}
    (leads : g.first.Leads behind result v)
    : g.first.Leads behind word v := by
  induction derives with
  | refl => exact leads
  | @step r before after _ member _ ih =>
      have opened := ih leads
      rw [List.append_assoc, SetMap.leads_append] at opened
      rw [SetMap.leads_append, ← List.singleton_append]
      refine opened.mono fun inner => ?_
      rw [SetMap.leads_append] at inner ⊢
      exact leads_of_rule member inner

/-- A terminal leads every word that begins with it. -/
theorem leads_term (first : SetMap) (behind : Value → Prop) (name : Value) (rest : List Symbol)
    : first.Leads behind (.term name :: rest) (.term name) := by
  rw [SetMap.leads_cons]
  exact Or.inl ⟨by simp, by simp [Symbol.toValue, SetMap.firstOfSymbol]⟩

section Words

variable {g : Grammar} {word : List Symbol}
  (declared : ∀ s ∈ word, s.Declared g.nonterms g.terms)

include declared

/-- The first set of a word has the mark of the empty word exactly if all its symbols vanish. -/
theorem has_epsilon_iff_vanish
    : (g.first.firstOf (word.map Symbol.toValue)).has .epsilon = true
      ↔ ∀ s ∈ word, g.Vanishes s :=
  ⟨g.explained_first.vanish_of_firstOf declared, has_epsilon_of_vanishes⟩

/-- A value other than the mark of the empty word is a terminal, and stands first in some word
that is derived.
-/
theorem exists_derives_of_firstOf {v : Value} (proper : v ≠ .epsilon)
    (found : (g.first.firstOf (word.map Symbol.toValue)).has v = true)
    : ∃ name rest, v = .term name ∧ g.Derives word (.term name :: rest) := by
  obtain ⟨before, s, after, rfl, erased, begins⟩ :=
    g.explained_first.begins_of_firstOf declared proper found
  obtain ⟨name, rest, rfl, derives⟩ := Begins.derives begins
  exact ⟨name, rest ++ after, rfl, .behind_vanishing erased derives after⟩

end Words

/-- The computed first set of a word of declared symbols has a terminal if and only if the word
derives one that begins with it, and the mark of the empty word if and only if the word derives
the empty word, which it does if and only if the computed set of vanishing nonterminals has all
of its symbols. It has nothing else.
-/
theorem has_firstOf_iff_derives (g : Grammar) {word : List Symbol}
    (declared : ∀ s ∈ word, s.Declared g.nonterms g.terms)
    : let first := g.first.firstOf (word.map Symbol.toValue)
      (∀ name, first.has (.term name) = true ↔ ∃ rest, g.Derives word (.term name :: rest))
      ∧ (first.has .epsilon = true ↔ g.Derives word [])
      ∧ (g.Derives word [] ↔ ∀ s ∈ word, g.nullable.has s.toValue = true)
      ∧ ∀ v, first.has v = true → v = .epsilon ∨ ∃ name, v = .term name := by
  intro first
  refine ⟨fun name => ⟨fun found => ?_, ?_⟩, ?_, derives_nil_iff_nullable, fun v found => ?_⟩
  · obtain ⟨_, rest, same, derives⟩ := exists_derives_of_firstOf declared (by simp) found
    cases same
    exact ⟨rest, derives⟩
  · intro derived
    obtain ⟨rest, derives⟩ := derived
    have leads := leads_of_derives derives (leads_term g.first (fun _ => False) name rest)
    exact (leads.resolve_right And.right).2
  · exact (has_epsilon_iff_vanish declared).trans derives_nil_iff.symm
  · by_cases mark : v = .epsilon
    · exact Or.inl mark
    · obtain ⟨name, _, same, _⟩ := exists_derives_of_firstOf declared mark found
      exact Or.inr ⟨name, same⟩

/-- A letter between two that may be missing. -/
def optionalLetters : Grammar where
  nonterms := [.ofString "S", .ofString "A"]
  terms := [.ofString "b"]
  rules := [
    ⟨.text (.ofString "S"), [.nonterm (.text (.ofString "A")), .term (.text (.ofString "b")),
      .nonterm (.text (.ofString "A"))]⟩,
    ⟨.text (.ofString "A"), [.term (.text (.ofString "b"))]⟩,
    ⟨.text (.ofString "A"), []⟩
  ]
  start := .ofString "S"
  nonterms_nodup := by decide
  terms_nodup := by decide
  nonterms_named := by decide
  terms_named := by decide
  rules_declared := by simp [Rule.Declared, Symbol.Declared]
  start_declared := by decide

theorem has_firstOf_iff_derives_optionalLetters
    : let optional := Symbol.nonterm (.text (.ofString "A"))
      let letter := Value.text (.ofString "b")
      (∀ s ∈ [optional, optional], s.Declared optionalLetters.nonterms optionalLetters.terms)
      ∧ (∃ rest, optionalLetters.Derives [optional, optional] (.term letter :: rest))
      ∧ optionalLetters.Derives [optional, optional] [] := by
  intro optional letter
  have declared
      : ∀ s ∈ [optional, optional], s.Declared optionalLetters.nonterms optionalLetters.terms := by
    decide
  obtain ⟨terminals, mark, _⟩ := optionalLetters.has_firstOf_iff_derives declared
  exact ⟨declared, (terminals letter).mp (by decide), mark.mp (by decide)⟩

end Grammar

end PredictiveParsing
