import PredictiveParsing.Proofs.FirstDerivations
import PredictiveParsing.Proofs.TreeBuilding
import PredictiveParsing.Tree.Validity

/-! Derivation trees and derivations describe the same words, and the first token of trees is a
lookahead of their symbols.
-/

namespace PredictiveParsing

variable {τ : Type}

namespace Tree

variable {rules : Rule → Prop} {terminalOf : τ → Value}

/-- Trees for two words stand for the two words in a row, by induction on the first. -/
theorem ValidAll.append {a b : List Symbol} {left right : List (Tree τ)}
    (first : ValidAll rules terminalOf a left) (second : ValidAll rules terminalOf b right)
    : ValidAll rules terminalOf (a ++ b) (left ++ right) :=
  match first with
  | .nil => second
  | .cons head tail => .cons head (tail.append second)

/-- Trees for two words in a row are those for the first and those for the second, by induction on
the first word.
-/
theorem ValidAll.split {a b : List Symbol} {trees : List (Tree τ)}
    (all : ValidAll rules terminalOf (a ++ b) trees)
    : ∃ left right,
        trees = left ++ right
        ∧ ValidAll rules terminalOf a left
        ∧ ValidAll rules terminalOf b right := by
  induction a generalizing trees with
  | nil => exact ⟨[], trees, rfl, .nil, all⟩
  | cons s a ih =>
      cases all with
      | cons head tail =>
          obtain ⟨left, right, rfl, first, second⟩ := ih tail
          exact ⟨_ :: left, right, rfl, .cons head first, second⟩

/-- A derivation turns trees for what it leads to into trees for what it starts from, with the
same leaves. By induction on the derivation: the trees of a body become a node.
-/
theorem exists_validAll_of_derives {symbols word : List Symbol}
    (derives : Derives rules symbols word) {trees : List (Tree τ)}
    (valid : ValidAll rules terminalOf word trees)
    : ∃ forest,
        ValidAll rules terminalOf symbols forest ∧ frontierAll forest = frontierAll trees := by
  induction derives with
  | refl => exact ⟨trees, valid, rfl⟩
  | @step r before after word hr _ ih =>
      obtain ⟨forest, all, leaves⟩ := ih valid
      obtain ⟨front, right, rfl, outer, later⟩ := all.split
      obtain ⟨left, children, rfl, earlier, below⟩ := outer.split
      refine ⟨left ++ .node r.lhs children :: right, ?_, ?_⟩
      · exact earlier.append (.cons (.node hr rfl rfl below) later)
      · simpa [frontierAll, frontier] using leaves

end Tree

namespace Grammar

variable {g : Grammar} {terminalOf : τ → Value}

/-- The values spell a word of the language. -/
def Sentence (g : Grammar) (values : List Value) : Prop :=
  ∃ word, g.Language word ∧ word.map Symbol.toValue = values

def Valid (g : Grammar) (terminalOf : τ → Value) : Symbol → Tree τ → Prop :=
  Tree.Valid (fun r => r ∈ g.rules) terminalOf

def ValidAll (g : Grammar) (terminalOf : τ → Value) : List Symbol → List (Tree τ) → Prop :=
  Tree.ValidAll (fun r => r ∈ g.rules) terminalOf

/-- The tokens of a word of terminals are the leaves of trees for it. -/
theorem validAll_leaves {word : List Symbol} (terminal : TerminalWord word) {tokens : List τ}
    (spelled : word.map Symbol.toValue = tokens.map terminalOf)
    : g.ValidAll terminalOf word (tokens.map .leaf) := by
  induction word generalizing tokens with
  | nil =>
      rw [List.map_eq_nil_iff.mp spelled.symm]
      exact .nil
  | cons s word ih =>
      obtain ⟨token, rest, rfl, first, later⟩ := List.map_eq_cons_iff.mp spelled.symm
      obtain ⟨name, rfl⟩ := terminal s List.mem_cons_self
      have tail := ih (fun t ht => terminal t (List.mem_cons_of_mem _ ht)) later.symm
      exact .cons (.leaf (by rw [first]; rfl)) tail

theorem frontierAll_leaves (tokens : List τ)
    : Tree.frontierAll (tokens.map .leaf) = tokens := by
  induction tokens with
  | nil => rfl
  | cons token tokens ih => simp [Tree.frontierAll, Tree.frontier, ih]

mutual

/-- A symbol derives the word that the leaves of its tree spell, by induction on the tree. -/
theorem derives_of_valid {s : Symbol} {tree : Tree τ} (valid : g.Valid terminalOf s tree)
    (declared : s.Declared g.nonterms g.terms)
    : ∃ word,
        TerminalWord word
        ∧ word.map Symbol.toValue = tree.frontier.map terminalOf
        ∧ g.Derives [s] word := by
  cases valid with
  | @leaf name token matched =>
      obtain ⟨t, _, rfl⟩ := declared
      refine ⟨[.term (.text t)], by simp [TerminalWord], ?_, .refl _⟩
      simp [Tree.frontier, Symbol.toValue, Value.key_eq_term_text.mp matched]
  | @node name symbol r children member head _ below =>
      obtain ⟨word, terminal, spelled, derives⟩ :=
        derives_of_validAll below (g.rules_declared r member).2
      refine ⟨word, terminal, spelled, ?_⟩
      rw [← head_eq_of_key member head]
      exact (PredictiveParsing.Derives.of_rule member).trans derives

/-- Symbols derive the word that their trees spell, tree by tree. -/
theorem derives_of_validAll {symbols : List Symbol} {trees : List (Tree τ)}
    (all : g.ValidAll terminalOf symbols trees)
    (declared : ∀ s ∈ symbols, s.Declared g.nonterms g.terms)
    : ∃ word,
        TerminalWord word
        ∧ word.map Symbol.toValue = (Tree.frontierAll trees).map terminalOf
        ∧ g.Derives symbols word := by
  cases all with
  | nil => exact ⟨[], by simp [TerminalWord], rfl, .refl _⟩
  | cons head tail =>
      obtain ⟨first, hf, sf, df⟩ := derives_of_valid head (declared _ List.mem_cons_self)
      obtain ⟨rest, hr, sr, dr⟩ :=
        derives_of_validAll tail fun s hs => declared s (List.mem_cons_of_mem _ hs)
      refine ⟨first ++ rest, hf.append hr, ?_, df.append dr⟩
      simp [Tree.frontierAll, sf, sr]

end

/-- Tokens spell a word of the language if they are the leaves of a tree for the start symbol. -/
theorem sentence_iff {tokens : List τ}
    : g.Sentence (tokens.map terminalOf)
      ↔ ∃ tree, g.Valid terminalOf g.startSymbol tree ∧ tree.frontier = tokens := by
  constructor
  · rintro ⟨word, ⟨terminal, derives⟩, spelled⟩
    obtain ⟨forest, all, leaves⟩ :=
      Tree.exists_validAll_of_derives derives (validAll_leaves terminal spelled)
    rw [frontierAll_leaves] at leaves
    cases all with
    | cons valid none =>
        cases none
        exact ⟨_, valid, by simpa using leaves⟩
  · rintro ⟨tree, valid, rfl⟩
    obtain ⟨word, terminal, spelled, derives⟩ := derives_of_valid valid g.start_isDeclared
    exact ⟨word, ⟨terminal, derives⟩, spelled⟩

/-- The first token of trees, or what stands behind trees without leaves, is a lookahead of their
symbols, since these derive the word that the leaves spell.
-/
theorem leads_of_validAll {symbols : List Symbol} {trees : List (Tree τ)}
    (all : g.ValidAll terminalOf symbols trees)
    (declared : ∀ s ∈ symbols, s.Declared g.nonterms g.terms) {behind : Value → Prop}
    {rest : List τ} (found : behind (nextOf terminalOf rest))
    : g.first.Leads behind symbols (nextOf terminalOf (Tree.frontierAll trees ++ rest)) := by
  obtain ⟨word, terminal, spelled, derives⟩ := derives_of_validAll all declared
  apply leads_of_derives derives
  cases word with
  | nil =>
      rw [List.map_eq_nil_iff.mp spelled.symm]
      exact SetMap.leads_nil.mpr found
  | cons s word =>
      obtain ⟨name, rfl⟩ := terminal s List.mem_cons_self
      obtain ⟨token, more, leaves, first, _⟩ := List.map_eq_cons_iff.mp spelled.symm
      rw [leaves, List.cons_append, nextOf, first]
      exact leads_term _ _ _ _

end Grammar

end PredictiveParsing
