import PredictiveParsing.Proofs.FirstDerivations
import PredictiveParsing.Proofs.FollowReasons

/-! The computed follow set of a nonterminal has exactly the terminals that stand behind it in
what some nonterminal derives, and the end mark if it stands last in what the start symbol
derives.
-/

namespace PredictiveParsing.Grammar

variable {g : Grammar}

/-- A terminal stands behind a nonterminal in something that a declared nonterminal derives. The
end mark stands behind it if it comes last in something that the start symbol derives.
-/
inductive Trails (g : Grammar) (name : Value) : Value → Prop where
  | term {n : Text} {front rest : List Symbol} {t : Value} (declared : n ∈ g.nonterms)
    (derives : g.Derives [.nonterm (.text n)] (front ++ .nonterm name :: .term t :: rest))
    : g.Trails name (.term t)
  | last {front : List Symbol} (derives : g.Derives [g.startSymbol] (front ++ [.nonterm name]))
    : g.Trails name .endMark

section Rules

variable {r : Rule} (member : r ∈ g.rules) {before after : List Symbol} {name : Value}
  (split : r.body = before ++ .nonterm name :: after)

include member split

/-- A terminal that the rest of a body can begin with stands behind the nonterminal. -/
theorem Trails.of_next {t : Value} {rest : List Symbol}
    (derives : g.Derives after (.term t :: rest))
    : g.Trails name (.term t) := by
  obtain ⟨⟨n, declared, head⟩, _⟩ := g.rules_declared r member
  have body : g.Derives r.body (before ++ .nonterm name :: .term t :: rest) := by
    rw [split]
    exact Derives.behind derives before (.nonterm name)
  have opened := (Derives.of_rule member).trans body
  rw [Rule.symbol, head] at opened
  exact .term declared opened

/-- What stands behind the nonterminal of a rule stands behind one in the body if the rest of
the body can vanish.
-/
theorem Trails.of_last (vanishes : g.Derives after []) {v : Value} (trails : g.Trails r.head v)
    : g.Trails name v := by
  have body : g.Derives r.body (before ++ [.nonterm name]) := by
    rw [split]
    exact Derives.behind vanishes before (.nonterm name)
  have opened : g.Derives [.nonterm r.head] (before ++ [.nonterm name]) :=
    (Derives.of_rule member).trans body
  cases trails with
  | @term n front rest t declared derives =>
      have whole := derives.trans (opened.inside front (.term t :: rest))
      rw [List.append_assoc, List.singleton_append, ← List.append_assoc] at whole
      exact .term declared whole
  | @last front derives =>
      have whole := derives.trans (opened.inside front [])
      rw [List.append_nil, ← List.append_assoc] at whole
      exact .last whole

end Rules

/-- What the rules put behind a nonterminal by the computed sets stands there, by induction on how
it is put there.
-/
theorem Trails.of_putsBehind {name v : Value} (behind : g.PutsBehind g.first g.nullable name v)
    : g.Trails name v := by
  induction behind with
  | start => exact @Trails.last g _ [] (.refl _)
  | @next r before after name v member split proper begins =>
      have declared : ∀ s ∈ after, s.Declared g.nonterms g.terms := fun s hs =>
        (g.rules_declared r member).2 s (by simp [split, hs])
      obtain ⟨t, more, rfl, derives⟩ := exists_derives_of_firstOf declared proper begins
      exact .of_next member split derives
  | last member split vanish _ ih =>
      exact .of_last member split (derives_nil_iff_nullable.mpr vanish) ih

-----------------------------------------------------------------------------------------
-- Whatever stands behind a nonterminal is in its follow set
-----------------------------------------------------------------------------------------

/-- Along a word, the follow set of each nonterminal has the lookaheads of what stands behind
it.
-/
def FollowsAlong (g : Grammar) (behind : Value → Prop) : List Symbol → Prop
  | [] => True
  | s :: rest =>
      (∀ name v, s = .nonterm name → g.first.Leads behind rest v → g.Follows name v)
      ∧ FollowsAlong g behind rest

/-- With fewer values behind a word, its nonterminals need fewer in their follow sets. By induction
on the word.
-/
theorem FollowsAlong.mono {behind fewer : Value → Prop} (less : ∀ v, fewer v → behind v)
    {word : List Symbol} (along : g.FollowsAlong behind word)
    : g.FollowsAlong fewer word := by
  induction word with
  | nil => trivial
  | cons s word ih =>
      refine ⟨fun name v here leads => ?_, ih along.2⟩
      exact along.1 name v here (leads.mono (less v))

/-- Of two words in a row, the first has behind it what the second leads to. By induction on the
first.
-/
theorem followsAlong_append {behind : Value → Prop} {word more : List Symbol}
    : g.FollowsAlong behind (word ++ more)
      ↔ g.FollowsAlong (g.first.Leads behind more) word ∧ g.FollowsAlong behind more := by
  induction word with
  | nil => simp [FollowsAlong]
  | cons s word ih =>
      simp only [List.cons_append, FollowsAlong, ih, SetMap.leads_append, and_assoc]

/-- The follow sets are right along every body, by induction on what is left of it. -/
theorem followsAlong_body {r : Rule} (member : r ∈ g.rules) {before body : List Symbol}
    (split : r.body = before ++ body)
    : g.FollowsAlong (g.Follows r.head) body := by
  induction body generalizing before with
  | nil => trivial
  | cons s body ih =>
      refine ⟨?_, ih (split.trans (List.append_cons _ _ _))⟩
      intro name v here leads
      rw [here] at split
      exact follows_of_leads member split leads

/-- The follow sets stay right along what is derived, by induction on the derivation: a body
takes over what stands behind the nonterminal of its rule.
-/
theorem FollowsAlong.derives {behind : Value → Prop} {word result : List Symbol}
    (derives : g.Derives word result) (along : g.FollowsAlong behind word)
    : g.FollowsAlong behind result := by
  induction derives with
  | refl => exact along
  | @step r before after _ member _ ih =>
      obtain ⟨front, here, rest⟩ := followsAlong_append.mp along
      refine ih ?_
      rw [List.append_assoc, followsAlong_append, followsAlong_append]
      have step : g.Derives (r.symbol :: after) (r.body ++ after) :=
        (Derives.of_rule member).inside [] after
      refine ⟨front.mono fun v => leads_of_derives step, ?_, rest⟩
      exact (followsAlong_body member (List.nil_append _).symm).mono fun v => here r.head v rfl

/-- A lookahead of what stands behind a nonterminal in something that another one derives
follows the former, if everything behind the word follows the latter.
-/
theorem follows_of_derives {name other v : Value} {front rest : List Symbol}
    (derives : g.Derives [.nonterm other] (front ++ .nonterm name :: rest))
    (leads : g.first.Leads (g.Follows other) rest v)
    : g.Follows name v := by
  have single : g.FollowsAlong (g.Follows other) [.nonterm other] := by
    refine ⟨fun name v here leads => ?_, trivial⟩
    rw [← Symbol.nonterm.inj here]
    exact SetMap.leads_nil.mp leads
  obtain ⟨_, here, _⟩ := followsAlong_append.mp (single.derives derives)
  exact here name v rfl leads

/-- A value is in the computed follow set of a nonterminal exactly if it stands behind it in some
derivation.
-/
theorem follows_iff_trails {name v : Value} : g.Follows name v ↔ g.Trails name v := by
  constructor
  · exact fun follows => .of_putsBehind (has_follow_iff_putsBehind.mp follows)
  · intro trails
    cases trails with
    | term _ derives => exact follows_of_derives derives (leads_term _ _ _ _)
    | last derives => exact follows_of_derives derives (SetMap.leads_nil.mpr g.follows_start)

/-- Every declared nonterminal has a computed follow set. It has a terminal if and only if this
stands behind the nonterminal in something that a declared nonterminal derives, and the end mark
if and only if the nonterminal comes last in something that the start symbol derives. It has
nothing else.
-/
theorem has_follow_iff_derives (g : Grammar) {n : Text} (declared : n ∈ g.nonterms)
    : ∃ follow,
        (g.follow g.first g.nullable).get? (.nonterm (.text n)) = some follow
        ∧ (∀ t,
          follow.has (.term t) = true
          ↔ ∃ m ∈ g.nonterms,
              ∃ front rest,
                g.Derives [.nonterm (.text m)]
                  (front ++ .nonterm (.text n) :: .term t :: rest))
        ∧ (follow.has .endMark = true
          ↔ ∃ front, g.Derives [g.startSymbol] (front ++ [.nonterm (.text n)]))
        ∧ ∀ v, follow.has v = true → v = .endMark ∨ ∃ t, v = .term t := by
  have present := g.hasEntries_follow g.first g.nullable n declared
  obtain ⟨follow, found⟩ := Option.ne_none_iff_exists'.mp (ValueMap.hasKey_iff_get?.mp present)
  have trails (v : Value) : follow.has v = true ↔ g.Trails (.text n) v := by
    rw [← follows_iff_trails, Follows, SetMap.setOf, found, Option.getD_some]
  refine ⟨follow, found, fun t => ?_, ?_, fun v has => ?_⟩
  · rw [trails]
    constructor
    · intro behind
      cases behind with
      | term declared derives => exact ⟨_, declared, _, _, derives⟩
    · intro derived
      obtain ⟨m, declared, front, rest, derives⟩ := derived
      exact .term declared derives
  · rw [trails]
    constructor
    · intro behind
      cases behind with
      | last derives => exact ⟨_, derives⟩
    · intro derived
      obtain ⟨front, derives⟩ := derived
      exact .last derives
  · cases (trails v).mp has with
    | term => exact Or.inr ⟨_, rfl⟩
    | last => exact Or.inl rfl

theorem has_follow_iff_derives_optionalLetters
    : let letter := Value.text (.ofString "b")
      let optional := Symbol.nonterm (.text (.ofString "A"))
      .ofString "A" ∈ optionalLetters.nonterms
      ∧ (∃ m ∈ optionalLetters.nonterms,
        ∃ front rest,
          optionalLetters.Derives [.nonterm (.text m)]
            (front ++ optional :: .term letter :: rest))
      ∧ ∃ front,
          optionalLetters.Derives [optionalLetters.startSymbol] (front ++ [optional]) := by
  intro letter optional
  have declared : .ofString "A" ∈ optionalLetters.nonterms := by decide
  obtain ⟨follow, found, terminals, last, _⟩ := optionalLetters.has_follow_iff_derives declared
  have computed (v : Value) : follow.has v = ((optionalLetters.follow optionalLetters.first
      optionalLetters.nullable).setOf optional.toValue).has v := by
    rw [SetMap.setOf, Symbol.toValue, found, Option.getD_some]
  rw [computed] at last
  specialize terminals letter
  rw [computed] at terminals
  exact ⟨declared, terminals.mp (by decide), last.mp (by decide)⟩

end PredictiveParsing.Grammar
