import Mathlib.Order.WellFoundedSet
import PredictiveParsing.Proofs.AcceptedTrees
import PredictiveParsing.Proofs.LeftRecursion

/-! A parse ends with any table whose rules are in the rows of their own nonterminals and are not
left recursive, taken together. Conflicts do not matter: whichever rules are chosen, each symbol
of a body is exposed by the nonterminal as long as nothing is read.
-/

namespace PredictiveParsing

variable {rules : Rule → Prop}

/-- Finitely many rules without left recursion cannot expose one symbol by another for ever, since
each symbol is exposed at most once on the way.
-/
theorem wellFounded_exposes (finite : {r | rules r}.Finite)
    (none : ∀ name, ¬ LeftRecursive rules name)
    : WellFounded fun y x => Exposes rules x y := by
  let below := fun y x => Relation.TransGen (Exposes rules) x y
  have irrefl : ∀ x, ¬ below x x := by
    intro x cycle
    obtain ⟨_, exposes, _⟩ := Relation.TransGen.head'_iff.mp cycle
    cases exposes with
    | @rule r => exact none r.head (leftRecursive_iff.mpr cycle)
  have order : IsStrictOrder Symbol below :=
    { irrefl, trans := fun _ _ _ first second => second.trans first }
  -- only the symbols of the rules take part
  let symbols : Set Symbol := ⋃ r ∈ {r | rules r}, {s | s ∈ r.symbol :: r.body}
  have few : symbols.Finite := finite.biUnion fun r _ => List.finite_toSet _
  have restricted := Set.wellFoundedOn_iff.mp (few.wellFoundedOn (r := below))
  refine Subrelation.wf (fun {y x} exposes => ⟨.single exposes, ?_, ?_⟩) restricted
  · cases exposes with
    | @rule r _ _ _ hr split _ => exact Set.mem_biUnion hr (by simp [split])
  · cases exposes with
    | @rule r _ _ _ hr _ _ => exact Set.mem_biUnion hr List.mem_cons_self

namespace Table

/-- A rule represents one that some cell holds. Derivations by these rules do not tell apart
symbols that count as one.
-/
def Represents (t : Table) (r : Rule) : Prop :=
  ∃ held, t.Holds held ∧ held.key = r

/-- A table holds finitely many rules. -/
theorem finite_represents (t : Table) : {r | t.Represents r}.Finite := by
  let cells := t.entries.flatMap fun entry => entry.2.entries.map fun cell => cell.2.key
  refine (List.finite_toSet cells).subset ?_
  rintro _ ⟨_, holds, rfl⟩
  obtain ⟨row, inTable, cell, inRow, rfl⟩ := exists_mem_of_holds holds
  exact List.mem_flatMap.mpr ⟨row, inTable, List.mem_map.mpr ⟨cell, inRow, rfl⟩⟩

end Table

namespace Parser

variable {τ : Type} {p : Parser τ}

/-- The symbols above a given stack make way: the run ends, or reads a token, or gets down to
that stack without reading, and then a condition holds that tells how.
-/
inductive MakesWay (p : Parser τ) (s : State τ) (below : List Symbol) (how : Prop) : Prop where
  | ends {result : Finished τ} (ends : p.Ends s result)
  | reads {t : State τ} (reaches : p.Reaches s t) (shorter : t.rest.length < s.rest.length)
  | bares {t : State τ} (reaches : p.Reaches s t) (same : t.rest = s.rest)
    (stack : t.stack = below) (reason : how)

/-- Symbols make way one after another: if the first ones are gone without reading, the next ones go
on.
-/
theorem MakesWay.bind {s : State τ} {middle below : List Symbol} {first second : Prop}
    (way : p.MakesWay s middle first)
    (next : ∀ t, t.rest = s.rest → t.stack = middle → first → p.MakesWay t below second)
    : p.MakesWay s below second := by
  cases way with
  | ends ends => exact .ends ends
  | reads reaches shorter => exact .reads reaches shorter
  | bares reaches same stack reason =>
      cases next _ same stack reason with
      | ends ends => exact .ends (ends.of_reaches reaches)
      | reads later shorter => exact .reads (reaches.trans later) (same ▸ shorter)
      | bares later same' bare reason =>
          exact .bares (reaches.trans later) (same'.trans same) bare reason

/-- On top of any stack, a symbol makes way, and it vanishes unless a token is read. -/
def Clears (p : Parser τ) (x : Symbol) : Prop :=
  ∀ (s : State τ) (below : List Symbol),
    s.stack = x :: below → p.MakesWay s below (Vanishes p.table.Represents x.key)

/-- The rest of a body makes way if the symbols that its nonterminal exposes do, by induction on
it: what comes first is exposed as long as everything before it vanishes.
-/
theorem makesWay_of_body {r : Rule} (represented : p.table.Represents r.key)
    (clears : ∀ y : Symbol, Exposes p.table.Represents r.key.symbol y.key → p.Clears y)
    {built body : List Symbol} (split : r.body = built ++ body)
    (erased : ∀ z ∈ built, Vanishes p.table.Represents z.key) {s : State τ}
    {below : List Symbol} (stack : s.stack = body ++ below)
    : p.MakesWay s below (∀ z ∈ r.body, Vanishes p.table.Represents z.key) := by
  induction body generalizing built s with
  | nil =>
      rw [List.append_nil] at split
      exact .bares .refl rfl stack (split ▸ erased)
  | cons y body ih =>
      have keys : r.key.body = built.map Symbol.key ++ y.key :: body.map Symbol.key := by
        simp [Rule.key, split]
      -- the symbols before this one vanish, which exposes it
      have exposes : Exposes p.table.Represents r.key.symbol y.key :=
        .rule represented keys (List.forall_mem_map.mpr erased)
      refine (clears y exposes s _ stack).bind fun t same top gone => ?_
      refine ih (split.trans (List.append_cons _ _ _)) ?_ top
      simpa [or_imp, forall_and] using ⟨erased, gone⟩

/-- A chosen rule represents one of the nonterminal for which it is chosen. -/
theorem represents_of_choose (keeps : p.table.KeepsHeads) {name la : Value} {r : Rule}
    (chosen : p.choose (.nonterm name) la = .ok (some r))
    : p.table.Represents r.key ∧ r.key.symbol = (Symbol.nonterm name).key := by
  have cell := cell_of_choose chosen
  have head : r.head.key = name.key := by
    simpa [Rule.lhs, Value.key] using keeps _ _ _ cell
  exact ⟨⟨r, ⟨_, _, cell⟩, rfl⟩, by simp [Rule.symbol, Rule.key, Symbol.key, head]⟩

/-- Every symbol makes way if rules are in the rows of their own nonterminals. By induction on the
symbols that it exposes.
-/
theorem clears_of_wellFounded (keeps : p.table.KeepsHeads)
    (founded : WellFounded fun y x => Exposes p.table.Represents x y) (x : Symbol)
    : p.Clears x := by
  induction h : x.key using founded.induction generalizing x with
  | h k ih =>
      subst h
      intro s below stack
      cases taken : p.step s with
      | halt outcome calls => exact .ends (.of_halt taken)
      | next t =>
          cases move_of_step taken with
          | shift top input seen matched =>
              exact .reads (.single (.shift top input seen matched)) (by simp [input])
          | @erase name focus under r top seen chosen empty =>
              obtain ⟨rfl, rfl⟩ := List.cons_eq_cons.mp (stack.symm.trans top)
              obtain ⟨represented, same⟩ := represents_of_choose keeps chosen
              refine .bares (.single (.erase top seen chosen empty)) rfl rfl ?_
              exact same ▸ .rule represented (by simp [Rule.key, empty])
          | @expand name focus under r top seen chosen nonempty =>
              obtain ⟨rfl, rfl⟩ := List.cons_eq_cons.mp (stack.symm.trans top)
              obtain ⟨represented, same⟩ := represents_of_choose keeps chosen
              -- the body takes the place of the nonterminal, and exposes only what that one exposes
              have opened : p.MakesWay s (r.body ++ below) True :=
                .bares (.single (.expand top seen chosen nonempty)) rfl rfl trivial
              refine opened.bind fun t _ bare _ => ?_
              have way := makesWay_of_body represented (fun y exposes => ?_)
                (List.nil_append _).symm (by simp) bare
              · refine way.bind fun u _ done gone => .bares .refl rfl done ?_
                exact same ▸ .rule represented (by simpa [Rule.key] using gone)
              · exact ih y.key (same ▸ exposes) y rfl

/-- If every symbol makes way, the run makes progress from every state: with an empty stack it ends.
-/
theorem progresses_of_clears (clears : ∀ x, p.Clears x) (s : State τ) : p.Progresses s := by
  cases stack : s.stack with
  | nil =>
      cases taken : p.step s with
      | halt outcome calls => exact Or.inl ⟨_, .of_halt taken⟩
      | next t => cases move_of_step taken <;> simp_all
  | cons x below =>
      cases clears x s below stack with
      | ends ends => exact Or.inl ⟨_, ends⟩
      | reads reaches shorter => exact Or.inr ⟨_, reaches, Or.inl shorter⟩
      | bares reaches same bare _ =>
          exact Or.inr ⟨_, reaches, Or.inr ⟨same, by simp [bare, stack]⟩⟩

/-- A parse ends, whatever the matcher, if the rules of the table are in the rows of their own
nonterminals and no nonterminal is left recursive by all of them taken together.
-/
theorem returns_of_not_leftRecursive (p : Parser τ) (keeps : p.table.KeepsHeads)
    (none : ∀ name, ¬ LeftRecursive p.table.Represents name) (tokens : List τ)
    : ∃ result, p.Returns tokens result := by
  have founded := wellFounded_exposes p.table.finite_represents none
  exact exists_ends_of_progresses (progresses_of_clears (clears_of_wellFounded keeps founded)) _

end Parser

/-- Rules whose bodies have only symbols of a lower rank than their nonterminals are not left
recursive, since the rank goes down on the way.
-/
theorem not_leftRecursive_of_rank (rank : Symbol → Nat)
    (lower : ∀ r, rules r → ∀ s ∈ r.body, rank s < rank r.symbol) (name : Value)
    : ¬ LeftRecursive rules name := by
  have down {x y : Symbol} (path : Relation.TransGen (Exposes rules) x y) : rank y < rank x := by
    have step {x y : Symbol} (exposes : Exposes rules x y) : rank y < rank x := by
      cases exposes with
      | @rule r _ _ _ hr split _ => exact lower r hr y (by simp [split])
    induction path with
    | single exposes => exact step exposes
    | tail _ exposes ih => exact (step exposes).trans ih
  exact fun recursive => absurd (down (leftRecursive_iff.mp recursive)) (lt_irrefl _)

theorem returns_of_not_leftRecursive_optionalLetters
    : let p : Parser Value :=
        ⟨.optionalLetters, Grammar.optionalLetters.ownTable, Matcher.asTerm⟩
      let letter : Value := .text (.ofString "b")
      Grammar.optionalLetters.isLL1 = false
      ∧ p.table.KeepsHeads
      ∧ (∀ name, ¬ LeftRecursive p.table.Represents name)
      ∧ ∃ result, p.Returns [letter, letter] result := by
  intro p letter
  have conflicting : Grammar.optionalLetters.isLL1 = false := by decide
  let optional := Symbol.nonterm (.text (.ofString "A"))
  let rank := fun s =>
    if s = Grammar.optionalLetters.startSymbol then 2 else if s = optional then 1 else 0
  have lower : ∀ r ∈ Grammar.optionalLetters.rules, ∀ s ∈ r.key.body, rank s < rank r.key.symbol :=
    by decide
  have keeps : p.table.KeepsHeads := Grammar.optionalLetters.keepsHeads_table _ _
  have none : ∀ name, ¬ LeftRecursive p.table.Represents name := by
    refine not_leftRecursive_of_rank rank ?_
    rintro _ ⟨r, ⟨_, _, cell⟩, rfl⟩
    exact lower r (Grammar.rule_of_cell cell).1
  exact ⟨conflicting, keeps, none, p.returns_of_not_leftRecursive keeps none [letter, letter]⟩

end PredictiveParsing
