import PredictiveParsing.Proofs.LeftRecursion
import PredictiveParsing.Proofs.NextTerminalDecisions
import PredictiveParsing.Proofs.ParseTermination

/-! A grammar without conflicts is not left recursive if all of its nonterminals take part in
words. Otherwise its parser would come back to the same nonterminal before the same token.
-/

namespace PredictiveParsing

variable {g : Grammar} {x y : Symbol} {v : Value}

namespace Grammar

def LeftRecursive (g : Grammar) : Value → Prop :=
  PredictiveParsing.LeftRecursive fun r => r ∈ g.rules

def Exposes (g : Grammar) : Symbol → Symbol → Prop :=
  PredictiveParsing.Exposes fun r => r ∈ g.rules

/-- What begins an exposed symbol begins the exposing one. -/
theorem Begins.of_exposes (exposes : g.Exposes x y) (begins : g.Begins y v) : g.Begins x v := by
  cases exposes with
  | rule member split erased => exact .rule member split erased begins

/-- What a symbol leads to begins nothing that the symbol does not begin, by induction on the
symbols on the way.
-/
theorem Begins.of_path (path : Relation.ReflTransGen g.Exposes x y) (begins : g.Begins y v)
    : g.Begins x v := by
  induction path using Relation.ReflTransGen.head_induction_on with
  | refl => exact begins
  | head exposes _ ih => exact ih.of_exposes exposes

-----------------------------------------------------------------------------------------
-- Symbols that begin nothing
-----------------------------------------------------------------------------------------

/-- A value follows a symbol that begins nothing. -/
structure FollowsSilent (g : Grammar) (x : Symbol) (v : Value) : Prop where
  silent : ∀ w, ¬ g.Begins x w
  follows : ∀ name, x = .nonterm name → g.Follows name v

/-- The body of a rule whose nonterminal begins nothing vanishes, since it derives some word of
terminals, which has no first one.
-/
theorem vanishes_of_silent (productive : g.Productive) {r : Rule} (member : r ∈ g.rules)
    (silent : ∀ w, ¬ g.Begins r.symbol w)
    : ∀ s ∈ r.body, g.Vanishes s := by
  obtain ⟨word, terminal, derives⟩ := productive.exists_word (g.rules_declared r member).2
  cases word with
  | nil => exact derives_nil_iff.mp derives
  | cons s word =>
      obtain ⟨t, rfl⟩ := terminal s List.mem_cons_self
      have path := (leadsTo_of_derives derives).transGen_rule member
      exact absurd (Begins.of_path path.to_reflTransGen (.term t)) (silent (.term t))

/-- What follows a symbol that begins nothing follows each symbol that it exposes, too. -/
theorem FollowsSilent.of_exposes (productive : g.Productive) (behind : g.FollowsSilent x v)
    (exposes : g.Exposes x y)
    : g.FollowsSilent y v := by
  refine ⟨fun w begins => behind.silent w (begins.of_exposes exposes), ?_⟩
  rintro name rfl
  cases exposes with
  | @rule r before after _ member split erased =>
      have gone := vanishes_of_silent productive member behind.silent
      have rest : ∀ s ∈ after, g.Vanishes s := fun s hs => gone s (by simp [split, hs])
      exact follows_of_leads member split
        (Or.inr ⟨has_epsilon_of_vanishes rest, behind.follows r.head rfl⟩)

end Grammar

-----------------------------------------------------------------------------------------
-- The parser takes the way that leads to a symbol
-----------------------------------------------------------------------------------------

namespace Parser

variable {τ : Type} {terminalOf : τ → Value}

/-- A symbol gives way to one that it exposes before a token that begins the latter. A token that
follows the former will do if nothing begins it.
-/
theorem exists_top_of_exposes (ll1 : g.isLL1 = true) (productive : g.Productive)
    (hashable : ∀ token, (terminalOf token).hashable = true) (exposes : g.Exposes x y)
    {s : State τ} {below : List Symbol} (stack : s.stack = x :: below)
    (next : g.Begins y (nextOf terminalOf s.rest)
      ∨ g.FollowsSilent x (nextOf terminalOf s.rest))
    : ∃ t under,
        Relation.TransGen (ofTotal g terminalOf).Move s t
        ∧ t.stack = y :: under
        ∧ t.rest = s.rest := by
  cases exposes with
  | @rule r before after _ member split erased =>
      have leads : g.first.Leads (g.Follows r.head) (y :: after) (nextOf terminalOf s.rest) := by
        rcases next with begins | behind
        · exact Grammar.leads_of_begins begins after
        · have gone := Grammar.vanishes_of_silent productive member behind.silent
          have rest : ∀ s ∈ y :: after, g.Vanishes s := fun s hs =>
            gone s (split ▸ List.mem_append_right before hs)
          exact Or.inr ⟨Grammar.has_epsilon_of_vanishes rest, behind.follows r.head rfl⟩
      obtain ⟨t, path, top, same⟩ := exists_exposed ll1 hashable member split erased stack leads
      exact ⟨t, _, path, top, same⟩

/-- A symbol gives way to one that it leads to, by induction on the symbols on the way. -/
theorem exists_top_of_path (ll1 : g.isLL1 = true) (productive : g.Productive)
    (hashable : ∀ token, (terminalOf token).hashable = true)
    (path : Relation.TransGen g.Exposes x y) {s : State τ} {below : List Symbol}
    (stack : s.stack = x :: below)
    (next : g.Begins y (nextOf terminalOf s.rest)
      ∨ g.FollowsSilent x (nextOf terminalOf s.rest))
    : ∃ t under,
        Relation.TransGen (ofTotal g terminalOf).Move s t
        ∧ t.stack = y :: under
        ∧ t.rest = s.rest := by
  induction path using Relation.TransGen.head_induction_on generalizing s below with
  | single exposes => exact exists_top_of_exposes ll1 productive hashable exposes stack next
  | head exposes path ih =>
      obtain ⟨t, under, first, top, same⟩ := exists_top_of_exposes ll1 productive hashable exposes
        stack (next.imp_left (.of_path path.to_reflTransGen))
      rw [← same] at next
      obtain ⟨u, bottom, later, here, input⟩ :=
        ih top (next.imp_right fun behind => behind.of_exposes productive exposes)
      exact ⟨u, bottom, first.trans later, here, input.trans same⟩

end Parser

namespace Grammar

theorem hashable_nextValue {word : List Symbol}
    (declared : ∀ s ∈ word, s.Declared g.nonterms g.terms)
    : (nextValue word).hashable = true := by
  cases word with
  | nil => rfl
  | cons s word => exact (declared s List.mem_cons_self).hashable

/-- Some value that can be looked up begins a declared nonterminal, or follows it if nothing does. -/
theorem exists_next (reachable : g.Reachable) (productive : g.Productive) {n : Text}
    (member : n ∈ g.nonterms)
    : ∃ v : Value,
        v.hashable = true
        ∧ (g.Begins (.nonterm (.text n)) v ∨ g.FollowsSilent (.nonterm (.text n)) v) := by
  by_cases silent : ∀ w, ¬ g.Begins (.nonterm (.text n)) w
  · obtain ⟨front, rest, derives⟩ := reachable n member
    have declared : ∀ s ∈ rest, s.Declared g.nonterms g.terms := fun s hs =>
      Derives.declared_of_start derives s (by simp [hs])
    obtain ⟨word, terminal, later⟩ := productive.exists_word declared
    have spelled := Derives.declared later declared
    refine ⟨nextValue word, hashable_nextValue spelled, Or.inr ⟨silent, ?_⟩⟩
    intro name here
    rw [← Symbol.nonterm.inj here]
    exact follows_of_derives derives (leads_of_derives later (leads_nextValue terminal))
  · simp only [not_forall, not_not] at silent
    obtain ⟨w, begins⟩ := silent
    obtain ⟨t, rest, rfl, derives⟩ := Begins.derives begins
    have declared := Derives.declared derives (List.forall_mem_singleton.mpr ⟨n, member, rfl⟩)
    exact ⟨_, (declared (.term t) List.mem_cons_self).hashable, Or.inl begins⟩

/-- Without conflicts, and if every nonterminal occurs in something that the start symbol derives
and derives a word of terminals, no nonterminal is left recursive.
-/
theorem not_leftRecursive_of_isLL1 (reachable : g.Reachable) (productive : g.Productive)
    (ll1 : g.isLL1 = true) (name : Value)
    : ¬ g.LeftRecursive name := by
  intro recursive
  have cycle : Relation.TransGen g.Exposes (.nonterm name) (.nonterm name) :=
    leftRecursive_iff.mp recursive
  have declared : ∃ n ∈ g.nonterms, name = .text n := by
    obtain ⟨_, exposes, _⟩ := Relation.TransGen.head'_iff.mp cycle
    generalize here : Symbol.nonterm name = top at exposes
    cases exposes with
    | @rule r _ _ _ member _ _ =>
        rw [Symbol.nonterm.inj here]
        exact (g.rules_declared r member).1
  obtain ⟨n, member, rfl⟩ := declared
  obtain ⟨v, hashable, next⟩ := exists_next reachable productive member
  have total : ∀ token : Unit, ((fun _ => v) token).hashable = true := fun _ => hashable
  obtain ⟨result, ends⟩ := Parser.exists_ends ll1 total (.initial (.nonterm (.text n)) [()])
  -- the token stays where it is, and the nonterminal comes back to the top of the stack
  refine Parser.not_ends_of_recurrence
    (fun s => (∃ below, s.stack = .nonterm (.text n) :: below) ∧ s.rest = [()])
    ?_ ⟨⟨_, rfl⟩, rfl⟩ result ends
  rintro s ⟨⟨below, stack⟩, input⟩
  obtain ⟨t, under, path, top, same⟩ :=
    Parser.exists_top_of_path ll1 productive total cycle stack (input ▸ next)
  exact ⟨t, path, ⟨under, top⟩, same.trans input⟩

/-- A letter behind any number of signs, each of which takes a letter of its own. -/
def signedLetters : Grammar where
  nonterms := [.ofString "S", .ofString "A"]
  terms := [.ofString "-", .ofString "b"]
  rules := [
    ⟨.text (.ofString "S"), [.nonterm (.text (.ofString "A")), .term (.text (.ofString "b"))]⟩,
    ⟨.text (.ofString "A"), [.term (.text (.ofString "-")), .nonterm (.text (.ofString "S"))]⟩,
    ⟨.text (.ofString "A"), []⟩
  ]
  start := .ofString "S"
  nonterms_nodup := optionalLetters.nonterms_nodup
  terms_nodup := by decide
  nonterms_named := optionalLetters.nonterms_named
  terms_named := by decide
  rules_declared := by simp [Rule.Declared, Symbol.Declared]
  start_declared := optionalLetters.start_declared

theorem not_leftRecursive_of_isLL1_signedLetters
    : signedLetters.Reachable
      ∧ signedLetters.Productive
      ∧ signedLetters.isLL1 = true
      ∧ ¬ signedLetters.LeftRecursive (.text (.ofString "S"))
      ∧ ¬ signedLetters.LeftRecursive (.text (.ofString "A")) := by
  let sign := Symbol.nonterm (.text (.ofString "A"))
  let letter := Symbol.term (.text (.ofString "b"))
  have opened : signedLetters.Derives [signedLetters.startSymbol] [sign, letter] :=
    .of_rule List.mem_cons_self
  have erased : signedLetters.Derives [sign] [] :=
    .of_rule (List.mem_cons_of_mem _ (List.mem_cons_of_mem _ List.mem_cons_self))
  have reachable : signedLetters.Reachable := by
    intro n member
    rcases List.mem_cons.mp member with rfl | later
    · exact ⟨[], [], .refl _⟩
    · rw [List.mem_singleton.mp later]
      exact ⟨[], [letter], opened⟩
  have productive : signedLetters.Productive := by
    intro n member
    rcases List.mem_cons.mp member with rfl | later
    · exact ⟨[letter], by simp [TerminalWord, letter], opened.trans (erased.append (.refl _))⟩
    · rw [List.mem_singleton.mp later]
      exact ⟨[], by simp [TerminalWord], erased⟩
  have ll1 : signedLetters.isLL1 = true := by decide
  have none := not_leftRecursive_of_isLL1 reachable productive ll1
  exact ⟨reachable, productive, ll1, none _, none _⟩

end Grammar

end PredictiveParsing
