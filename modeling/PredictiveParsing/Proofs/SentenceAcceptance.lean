import PredictiveParsing.Proofs.AcceptedTrees
import PredictiveParsing.Proofs.PredictedMoves

/-! Without conflicts, the parser accepts exactly the sentences of the grammar, each with its
only derivation tree.
-/

namespace PredictiveParsing.Parser

variable {τ : Type} {g : Grammar} {terminalOf : τ → Value}

mutual

/-- The run reads the tokens of a derivation tree and hands the tree on, if what stands behind
its tokens can follow its symbol. By induction on the tree: the next token selects the rule at
the root.
-/
theorem delivers_of_valid (ll1 : g.isLL1 = true)
    (hashable : ∀ token, (terminalOf token).hashable = true) {x : Symbol} {tree : Tree τ}
    (valid : g.Valid terminalOf x tree) {s : State τ} {below : List Symbol} {rest : List τ}
    (stack : s.stack = x :: below) (input : s.rest = tree.frontier ++ rest)
    (follows : ∀ name, x = .nonterm name → g.Follows name (nextOf terminalOf rest))
    : ∃ t,
        (ofTotal g terminalOf).Reaches s t
        ∧ Delivered tree s.frames s.done below rest t := by
  cases valid with
  | @leaf name token matched =>
      have next : s.rest = token :: rest := input
      exact ⟨_, .single (.shift stack next rfl matched), ⟨rfl, rfl, rfl, rfl⟩⟩
  | @node name symbol r children member head same all =>
      have here : r.head = name := Grammar.head_eq_of_key member head
      subst here
      have root : symbol = r.lhs := Grammar.eq_lhs_of_key member same
      subst root
      -- the lookahead is the first token of the node or, if it has none, what follows it
      have selected : g.Selects r (nextOf terminalOf s.rest) := by
        rw [input]
        exact Grammar.leads_of_validAll all (g.rules_declared r member).2 (follows r.head rfl)
      by_cases empty : r.body = []
      · have erased := erase_of_selects ll1 hashable member stack selected empty
        rw [empty] at all
        cases all
        exact ⟨_, .single erased, ⟨rfl, input, rfl, rfl⟩⟩
      · have opened := expand_of_selects ll1 hashable member stack selected empty
        obtain ⟨t, reaches, delivered⟩ := delivers_of_validAll ll1 hashable all empty
          (s := s.asked.expand below r) member (List.nil_append _).symm rfl rfl rfl input
          (follows r.head rfl)
        exact ⟨t, .head opened reaches, delivered⟩

/-- The run reads the tokens of the trees for the rest of a body and hands on the tree of the
rule, by induction on the trees.
-/
theorem delivers_of_validAll (ll1 : g.isLL1 = true)
    (hashable : ∀ token, (terminalOf token).hashable = true) {body : List Symbol}
    {trees : List (Tree τ)} (all : g.ValidAll terminalOf body trees) (nonempty : body ≠ [])
    {s : State τ} {r : Rule} (member : r ∈ g.rules) {built : List Symbol}
    (split : r.body = built ++ body) {children : List (Tree τ)}
    (count : children.length = built.length) {frames : List (Frame τ)}
    (top : s.frames = ⟨r, children⟩ :: frames) {below : List Symbol} {rest : List τ}
    (stack : s.stack = body ++ below) (input : s.rest = Tree.frontierAll trees ++ rest)
    (follows : g.Follows r.head (nextOf terminalOf rest))
    : ∃ t,
        (ofTotal g terminalOf).Reaches s t
        ∧ Delivered (.node r.lhs (children ++ trees)) frames s.done below rest t := by
  cases all with
  | nil => exact absurd rfl nonempty
  | @cons x more tree trees head tail =>
      -- the first symbol is followed by the tokens of the other trees, or by what follows the rule
      have behind : ∀ name, x = .nonterm name
          → g.Follows name (nextOf terminalOf (Tree.frontierAll trees ++ rest)) := by
        rintro name rfl
        have declared : ∀ s ∈ more, s.Declared g.nonterms g.terms := fun s hs =>
          (g.rules_declared r member).2 s (by simp [split, hs])
        exact Grammar.follows_of_leads member split
          (Grammar.leads_of_validAll tail declared follows)
      obtain ⟨t, reaches, delivered⟩ := delivers_of_valid ll1 hashable head stack
        (by rw [input, Tree.frontierAll, List.append_assoc]) behind
      cases more with
      | nil =>
          cases tail
          rw [top] at delivered
          exact ⟨t, reaches, delivered.last split count⟩
      | cons next more =>
          rw [top] at delivered
          obtain ⟨attached, done⟩ := delivered.inner split count
          obtain ⟨u, later, delivered'⟩ := delivers_of_validAll ll1 hashable tail (by simp)
            (s := t) member (split.trans (List.append_cons _ _ _)) (by simp [count]) attached
            delivered.stack delivered.input follows
          refine ⟨u, reaches.trans later, ?_⟩
          simpa [done] using delivered'

end

/-- The trees that the parser of a grammar builds stand for their symbols by its rules. -/
theorem builds_ofTotal (g : Grammar) (terminalOf : τ → Value)
    : (ofTotal g terminalOf).Builds (g.Valid terminalOf) :=
  builds_valid fun ⟨_, cell⟩ =>
    have ⟨member, row, _⟩ := Grammar.rule_of_ownTable cell
    ⟨member, row⟩

/-- The leaves of a tree for the start symbol are parsed, and this tree is accepted. -/
theorem returns_of_valid (ll1 : g.isLL1 = true)
    (hashable : ∀ token, (terminalOf token).hashable = true) {tree : Tree τ}
    (valid : g.Valid terminalOf g.startSymbol tree)
    : ∃ calls, (ofTotal g terminalOf).Returns tree.frontier ⟨.accepted tree, calls⟩ := by
  have last : ∀ name, g.startSymbol = .nonterm name → g.Follows name .endMark := by
    intro name same
    rw [← Symbol.nonterm.inj same]
    exact g.follows_start
  obtain ⟨t, reaches, delivered⟩ := delivers_of_valid ll1 hashable valid
    (s := .initial g.startSymbol tree.frontier) rfl (List.append_nil _).symm last
  have halt := step_accept (ofTotal g terminalOf) delivered.stack delivered.input
    delivered.complete
  exact ⟨_, (Ends.of_halt halt).of_reaches reaches⟩

/-- The tokens of a sentence are accepted, since they are the leaves of a tree for the start symbol.
-/
theorem accepts_of_sentence (ll1 : g.isLL1 = true)
    (hashable : ∀ token, (terminalOf token).hashable = true) {tokens : List τ}
    (sentence : g.Sentence (tokens.map terminalOf))
    : ∃ tree calls, (ofTotal g terminalOf).Returns tokens ⟨.accepted tree, calls⟩ := by
  obtain ⟨tree, valid, rfl⟩ := Grammar.sentence_iff.mp sentence
  exact ⟨tree, returns_of_valid ll1 hashable valid⟩

/-- Without conflicts, the parser accepts tokens with a tree if and only if it is a derivation
tree of the start symbol with these leaves. So it accepts the sentences of the grammar and
nothing else, and a sentence has no other derivation tree.
-/
theorem accepts_iff_derivation_tree (ll1 : g.isLL1 = true)
    (hashable : ∀ token, (terminalOf token).hashable = true) (tokens : List τ)
    : let p := Parser.ofGrammar g fun token => .ok (terminalOf token)
      let IsTree := fun tree =>
        Tree.Valid (fun r => r ∈ g.rules) terminalOf g.startSymbol tree
        ∧ tree.frontier = tokens
      (∀ tree, (∃ calls, p.Returns tokens ⟨.accepted tree, calls⟩) ↔ IsTree tree)
      ∧ ((∃ tree calls, p.Returns tokens ⟨.accepted tree, calls⟩)
        ↔ g.Sentence (tokens.map terminalOf))
      ∧ ∀ tree other, IsTree tree → IsTree other → tree = other := by
  intro p IsTree
  have exact_trees (tree : Tree τ)
      : (∃ calls, p.Returns tokens ⟨.accepted tree, calls⟩) ↔ IsTree tree := by
    constructor
    · rintro ⟨calls, accepted⟩
      exact (builds_ofTotal g terminalOf).accepted accepted
    · rintro ⟨valid, rfl⟩
      exact returns_of_valid ll1 hashable valid
  refine ⟨exact_trees, ?_, ?_⟩
  · rw [Grammar.sentence_iff]
    exact exists_congr exact_trees
  · intro tree other first second
    obtain ⟨_, hfirst⟩ := (exact_trees tree).mpr first
    obtain ⟨_, hsecond⟩ := (exact_trees other).mpr second
    have same := congrArg Finished.outcome (Ends.unique hfirst hsecond)
    exact Outcome.accepted.inj same

def bracketOf (opening : Bool) : Value :=
  .term (.text (.ofString (if opening then "(" else ")")))

theorem hashable_bracketOf (opening : Bool) : (bracketOf opening).hashable = true := by
  cases opening <;> rfl

theorem accepts_iff_derivation_tree_brackets
    : Grammar.brackets.isLL1 = true
      ∧ (∀ opening, (bracketOf opening).hashable = true)
      ∧ Grammar.brackets.Sentence ([true, false].map bracketOf)
      ∧ ¬ Grammar.brackets.Sentence ([false, true].map bracketOf) := by
  have ll1 : Grammar.brackets.isLL1 = true := by decide
  refine ⟨ll1, hashable_bracketOf, ?_, ?_⟩
  · obtain ⟨_, sentences, _⟩ :=
      accepts_iff_derivation_tree ll1 hashable_bracketOf [true, false]
    exact sentences.mp ⟨_, _, 20, rfl⟩
  · intro sentence
    obtain ⟨_, sentences, _⟩ :=
      accepts_iff_derivation_tree ll1 hashable_bracketOf [false, true]
    obtain ⟨tree, calls, accepted⟩ := sentences.mpr sentence
    have rejected : (ofTotal .brackets bracketOf).Returns [false, true]
        ⟨.rejected 0 .endMark [false, true], 2⟩ := ⟨20, rfl⟩
    cases congrArg Finished.outcome (Ends.unique accepted rejected)

end PredictiveParsing.Parser
