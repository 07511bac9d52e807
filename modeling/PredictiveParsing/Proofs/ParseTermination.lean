import PredictiveParsing.Proofs.SentenceAcceptance

/-! Without conflicts, every parse ends, also with left recursion and with nonterminals that
derive no word: a rule is only chosen if its body leads to a token that is read, or vanishes.
-/

namespace PredictiveParsing

namespace Parser

variable {τ : Type} {g : Grammar} {terminalOf : τ → Value}

/-- A symbol that is followed by the next token leaves the stack, and nothing is read. -/
def Erasable (g : Grammar) (terminalOf : τ → Value) (x : Symbol) : Prop :=
  ∀ (s : State τ) (below : List Symbol),
    s.stack = x :: below
    → (∀ name, x = .nonterm name → g.Follows name (nextOf terminalOf s.rest))
    → ∃ t, (ofTotal g terminalOf).Reaches s t ∧ t.stack = below ∧ t.rest = s.rest

/-- The first symbols of a body leave the stack one by one if the next token leads what stands
behind them, by induction on these symbols.
-/
theorem erases_front {r : Rule} (member : r ∈ g.rules) {built front back : List Symbol}
    (split : r.body = built ++ (front ++ back)) (vanish : ∀ x ∈ front, g.Vanishes x)
    (erasable : ∀ x ∈ front, Erasable g terminalOf x) {s : State τ} {below : List Symbol}
    (stack : s.stack = front ++ (back ++ below))
    (leads : g.first.Leads (g.Follows r.head) back (nextOf terminalOf s.rest))
    : ∃ t,
        (ofTotal g terminalOf).Reaches s t ∧ t.stack = back ++ below ∧ t.rest = s.rest := by
  induction front generalizing built s with
  | nil => exact ⟨s, .refl, stack, rfl⟩
  | cons x front ih =>
      rw [List.forall_mem_cons] at vanish erasable
      have behind : g.first.Leads (g.Follows r.head) (front ++ back)
          (nextOf terminalOf s.rest) :=
        SetMap.leads_append.mpr (Or.inr ⟨Grammar.has_epsilon_of_vanishes vanish.2, leads⟩)
      obtain ⟨t, reaches, here, same⟩ := erasable.1 s (front ++ (back ++ below)) stack (by
        rintro name rfl
        exact Grammar.follows_of_leads member split behind)
      obtain ⟨u, later, done, input⟩ := ih (s := t) (split.trans (List.append_cons _ _ _))
        vanish.2 erasable.2 here (by rw [same]; exact leads)
      exact ⟨u, reaches.trans later, done, input.trans same⟩

/-- A symbol that vanishes can be erased, by induction on how it vanishes: the next token
selects the rule that does it.
-/
theorem erasable_of_vanishes (ll1 : g.isLL1 = true)
    (hashable : ∀ token, (terminalOf token).hashable = true) {x : Symbol}
    (vanishes : g.Vanishes x)
    : Erasable g terminalOf x := by
  induction vanishes with
  | @rule r member body ih =>
      intro s below stack follows
      have selected : g.Selects r (nextOf terminalOf s.rest) :=
        Or.inr ⟨Grammar.has_epsilon_of_vanishes body, follows r.head rfl⟩
      by_cases empty : r.body = []
      · have erased := erase_of_selects ll1 hashable member stack selected empty
        exact ⟨_, .single erased, rfl, rfl⟩
      · have opened := expand_of_selects ll1 hashable member stack selected empty
        have split : r.body = [] ++ (r.body ++ []) := by simp
        have top : (s.asked.expand below r).stack = r.body ++ ([] ++ below) := rfl
        obtain ⟨t, reaches, bare, input⟩ := erases_front member split body ih top
          (SetMap.leads_nil.mpr (follows r.head rfl))
        exact ⟨t, .head opened reaches, bare, input⟩

/-- The nonterminal of a rule gives way to a symbol of the body behind symbols that vanish, if
the next token leads what begins with that symbol: the rule is chosen, and the symbols before
are erased.
-/
theorem exists_exposed (ll1 : g.isLL1 = true)
    (hashable : ∀ token, (terminalOf token).hashable = true) {r : Rule} (member : r ∈ g.rules)
    {before after : List Symbol} {y : Symbol} (split : r.body = before ++ y :: after)
    (erased : ∀ x ∈ before, g.Vanishes x) {s : State τ} {below : List Symbol}
    (stack : s.stack = r.symbol :: below)
    (leads : g.first.Leads (g.Follows r.head) (y :: after) (nextOf terminalOf s.rest))
    : ∃ t,
        Relation.TransGen (ofTotal g terminalOf).Move s t
        ∧ t.stack = y :: (after ++ below)
        ∧ t.rest = s.rest := by
  have selected : g.Selects r (nextOf terminalOf s.rest) := by
    rw [Grammar.Selects, split, SetMap.leads_append]
    exact Or.inr ⟨Grammar.has_epsilon_of_vanishes erased, leads⟩
  have opened := expand_of_selects ll1 hashable member stack selected (by simp [split])
  have whole : r.body = [] ++ (before ++ y :: after) := split
  have top : (s.asked.expand below r).stack = before ++ (y :: after ++ below) := by
    simp [split]
  obtain ⟨t, reaches, bare, same⟩ := erases_front member whole erased
    (fun z hz => erasable_of_vanishes ll1 hashable (erased z hz)) top leads
  exact ⟨t, .head' opened reaches, bare, same⟩

/-- A symbol that the next token begins leads to a state in which the token is read, by
induction on how it begins.
-/
theorem advances_of_begins (ll1 : g.isLL1 = true)
    (hashable : ∀ token, (terminalOf token).hashable = true) {x : Symbol} {v : Value}
    (begins : g.Begins x v) {s : State τ} {below : List Symbol} (stack : s.stack = x :: below)
    (next : nextOf terminalOf s.rest = v)
    : ∃ t, (ofTotal g terminalOf).Reaches s t ∧ t.rest.length < s.rest.length := by
  induction begins generalizing s below with
  | term name =>
      cases input : s.rest with
      | nil => simp [nextOf, input] at next
      | cons token rest =>
          rw [input] at next
          have matched : (terminalOf token).key = (Value.term name).key := congrArg Value.key next
          exact ⟨_, .single (.shift stack input rfl matched), by simp⟩
  | @rule r before after y v member split erased head ih =>
      have leads : g.first.Leads (g.Follows r.head) (y :: after) (nextOf terminalOf s.rest) :=
        next ▸ Grammar.leads_of_begins head after
      obtain ⟨t, path, top, same⟩ :=
        exists_exposed ll1 hashable member split erased stack leads
      obtain ⟨u, later, shorter⟩ := ih top ((congrArg _ same).trans next)
      exact ⟨u, path.to_reflTransGen.trans later, same ▸ shorter⟩

/-- A step that does not halt leads to a state with fewer tokens to read, or with fewer symbols
on the stack.
-/
theorem progresses_of_isLL1 (ll1 : g.isLL1 = true)
    (hashable : ∀ token, (terminalOf token).hashable = true) (s : State τ)
    : (ofTotal g terminalOf).Progresses s := by
  cases taken : (ofTotal g terminalOf).step s with
  | halt outcome calls => exact Or.inl ⟨_, .of_halt taken⟩
  | next t =>
      refine Or.inr ?_
      cases move_of_step taken with
      | shift stack input seen matched =>
          exact ⟨_, .single (.shift stack input seen matched), Or.inl (by simp [input])⟩
      | erase stack seen chosen empty =>
          exact ⟨_, .single (.erase stack seen chosen empty), Or.inr ⟨rfl, by simp [stack]⟩⟩
      | @expand name focus below r stack seen chosen nonempty =>
          rw [eq_nextOf_of_lookahead seen] at chosen
          obtain ⟨member, row, selected⟩ := selects_of_choose chosen
          rw [← row] at stack
          -- the token begins the body and will be read, or the whole body will be erased
          rcases selected with ⟨proper, begins⟩ | ⟨vanishes, follows⟩
          · have begun := (g.explained_first.firstOf member begins).resolve_left
              fun ⟨mark, _⟩ => proper mark
            obtain ⟨u, reaches, shorter⟩ := advances_of_begins ll1 hashable begun stack rfl
            exact ⟨u, reaches, Or.inl shorter⟩
          · have reason := g.explained_first.firstOf member vanishes
            have gone := reason.resolve_right (Grammar.not_begins_epsilon _)
            obtain ⟨u, reaches, bare, same⟩ := erasable_of_vanishes ll1 hashable gone.2 s below
              stack (fun n hn => Symbol.nonterm.inj hn ▸ follows)
            exact ⟨u, reaches, Or.inr ⟨same, by simp [bare, stack]⟩⟩

/-- The run from any state comes to an end, since it makes progress in every state. -/
theorem exists_ends (ll1 : g.isLL1 = true)
    (hashable : ∀ token, (terminalOf token).hashable = true) (s : State τ)
    : ∃ result, (ofTotal g terminalOf).Ends s result :=
  exists_ends_of_progresses (progresses_of_isLL1 ll1 hashable) s

theorem named_ofTotal (g : Grammar) (terminalOf : τ → Value)
    : (ofTotal g terminalOf).table.Named :=
  g.named_table _ _

/-- Without conflicts, the parse of any tokens returns: it accepts them with a tree, or rejects
them with the tokens from some place on as the rest.
-/
theorem returns_of_isLL1 (ll1 : g.isLL1 = true)
    (hashable : ∀ token, (terminalOf token).hashable = true) (tokens : List τ)
    : let p := Parser.ofGrammar g fun token => .ok (terminalOf token)
      (∃ tree calls, p.Returns tokens ⟨.accepted tree, calls⟩)
      ∨ ∃ index expected calls,
          p.Returns tokens ⟨.rejected index expected (tokens.drop index), calls⟩ := by
  intro p
  obtain ⟨⟨outcome, calls⟩, ends⟩ := exists_ends ll1 hashable (.initial g.startSymbol tokens)
  have total : p.Total := fun token => ⟨_, rfl, hashable token⟩
  rcases outcome_of_returns (named_ofTotal g terminalOf) total ends with
    ⟨tree, rfl⟩ | ⟨index, expected, rfl⟩
  · exact Or.inl ⟨tree, calls, ends⟩
  · exact Or.inr ⟨index, expected, calls, ends⟩

end Parser

/-- A nonterminal that vanishes or stands first in its own body, before one without rules. -/
def Grammar.leftRecursive : Grammar where
  nonterms := [.ofString "A", .ofString "U"]
  terms := [.ofString "a"]
  rules := [
    ⟨.text (.ofString "A"), [.nonterm (.text (.ofString "A")), .nonterm (.text (.ofString "U"))]⟩,
    ⟨.text (.ofString "A"), []⟩
  ]
  start := .ofString "A"
  nonterms_nodup := by decide
  terms_nodup := by decide
  nonterms_named := by decide
  terms_named := by decide
  rules_declared := by simp [Rule.Declared, Symbol.Declared]
  start_declared := by decide

theorem returns_of_isLL1_leftRecursive
    : let a := fun _ : Unit => Value.term (.text (.ofString "a"))
      let p := Parser.ofGrammar .leftRecursive fun token => .ok (a token)
      Grammar.leftRecursive.isLL1 = true
      ∧ (∀ token, (a token).hashable = true)
      ∧ ((∃ tree calls, p.Returns [()] ⟨.accepted tree, calls⟩)
        ∨ ∃ index expected calls,
            p.Returns [()] ⟨.rejected index expected (List.drop index [()]), calls⟩) := by
  intro a p
  have ll1 : Grammar.leftRecursive.isLL1 = true := by decide
  have hashable : ∀ token, (a token).hashable = true := fun _ => rfl
  exact ⟨ll1, hashable, Parser.returns_of_isLL1 ll1 hashable [()]⟩

end PredictiveParsing
