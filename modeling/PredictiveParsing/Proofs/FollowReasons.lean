import PredictiveParsing.Proofs.FollowSets

/-! Follow sets from any first sets and any set of symbols that vanish. They have exactly the
values that the rules put behind a nonterminal, in one step or by way of the nonterminals of
other rules.
-/

namespace PredictiveParsing

/-- The rules put a value behind a nonterminal: the end mark behind the start symbol, what the
rest of a body can begin with behind a nonterminal before it, and whatever is behind the
nonterminal of a rule behind one in the body if the rest vanishes.
-/
inductive PutsBehind (rules : Rule → Prop) (start : Text) (first : SetMap) (null : ValueSet)
    : Value → Value → Prop where
  | start : PutsBehind rules start first null (.text start) .endMark
  | next {r : Rule} {before after : List Symbol} {name v : Value} (hr : rules r)
    (split : r.body = before ++ .nonterm name :: after) (proper : v ≠ .epsilon)
    (begins : (first.firstOf (after.map Symbol.toValue)).has v = true)
    : PutsBehind rules start first null name v
  | last {r : Rule} {before after : List Symbol} {name v : Value} (hr : rules r)
    (split : r.body = before ++ .nonterm name :: after)
    (vanish : ∀ s ∈ after, null.has s.toValue = true)
    (behind : PutsBehind rules start first null r.head v)
    : PutsBehind rules start first null name v

/-- More rules, larger first sets and more symbols that vanish put more behind a nonterminal, by
induction on how it comes there.
-/
theorem PutsBehind.mono {rules more : Rule → Prop} {start : Text} {first larger : SetMap}
    {null wider : ValueSet} (hm : ∀ r, rules r → more r) (hf : first ≤ larger) (hn : null ≤ wider)
    {name v : Value} (behind : PutsBehind rules start first null name v)
    : PutsBehind more start larger wider name v := by
  induction behind with
  | start => exact .start
  | next hr split proper begins =>
      exact .next (hm _ hr) split proper (SetMap.firstOf_mono hf _ _ begins)
  | last hr split vanish _ ih =>
      exact .last (hm _ hr) split (fun s hs => hn _ (vanish s hs)) ih

namespace Grammar

variable {g : Grammar} {first : SetMap} {null : ValueSet}

def PutsBehind (g : Grammar) (first : SetMap) (null : ValueSet) : Value → Value → Prop :=
  PredictiveParsing.PutsBehind (fun r => r ∈ g.rules) g.start first null

def AllBehind (g : Grammar) (first : SetMap) (null : ValueSet) (follow : SetMap) : Prop :=
  ∀ name v, (follow.setOf (.nonterm name)).has v = true → g.PutsBehind first null name v

/-- Adding a set to that of a nonterminal keeps the reasons, if its values have reasons for that
nonterminal.
-/
theorem AllBehind.addAll {follow : SetMap} (behind : g.AllBehind first null follow) {n : Text}
    {s : ValueSet} (reasons : ∀ v, s.has v = true → g.PutsBehind first null (.text n) v)
    : g.AllBehind first null (follow.addAll (.nonterm (.text n)) s) := by
  intro name v found
  rcases SetMap.has_setOf_addAll.mp found with old | ⟨same, new⟩
  · exact behind name v old
  · have here : Value.nonterm name = .nonterm (.text n) := Value.key_eq_nonterm_text.mp same.symm
    cases here
    exact reasons v new

/-- What the rest of a body begins with is put behind a nonterminal, by induction on what is left
of the body.
-/
theorem AllBehind.followSeedBody {r : Rule} (member : r ∈ g.rules) {before body : List Symbol}
    (split : r.body = before ++ body) {follow : SetMap} (behind : g.AllBehind first null follow)
    : g.AllBehind first null (Grammar.followSeedBody first body follow) := by
  induction body generalizing before follow with
  | nil => exact behind
  | cons s rest ih =>
      have later : r.body = (before ++ [s]) ++ rest := by simp [split]
      cases s with
      | nonterm name =>
          obtain ⟨n, _, rfl⟩ := (g.rules_declared r member).2 (.nonterm name) (by simp [split])
          refine ih later (behind.addAll fun v found => ?_)
          rw [ValueSet.has_erase, Bool.and_eq_true, decide_eq_true_eq] at found
          exact .next member split (fun mark => found.2 (congrArg Value.key mark)) found.1
      | term name | endMark => exact ih later behind

/-- At the start all values have reasons: the end mark behind the start symbol, and what the rest of
a body can begin with.
-/
theorem allBehind_followSeed (g : Grammar) (first : SetMap) (null : ValueSet)
    : g.AllBehind first null (g.followSeed first) := by
  have start : g.AllBehind first null
      (g.emptySets.addAll g.startSymbol.toValue (.singleton .endMark)) := by
    apply AllBehind.addAll
    · intro name v found
      simp [setOf_emptySets] at found
    · intro v found
      rw [ValueSet.has_singleton, decide_eq_true_eq] at found
      rw [Value.key_eq_endMark.mp found.symm]
      exact .start
  exact foldl_invariant (g.AllBehind first null)
    (fun r member _ sofar => sofar.followSeedBody member (List.nil_append _).symm) start

/-- A pass keeps the reasons, since it only hands on values from the nonterminal of a rule to the
last ones of its body.
-/
theorem AllBehind.pass {follow : SetMap} (behind : g.AllBehind first null follow)
    : g.AllBehind first null (g.followPass null follow) := by
  apply foldl_invariant (g.AllBehind first null) _ behind
  intro r member m sofar
  apply foldl_invariant (g.AllBehind first null) _ sofar
  intro v last m sofar
  obtain ⟨before, name, after, split, vanish, rfl⟩ := split_of_mem_lastNonterms last
  obtain ⟨n, _, rfl⟩ := (g.rules_declared r member).2 (.nonterm name) (by simp [split])
  exact sofar.addAll fun v found => .last member split vanish (sofar r.head v found)

/-- A follow set has exactly the values that the rules put behind the nonterminal: passes add no
others, and the settled sets are closed under the rules.
-/
theorem has_follow_iff_putsBehind {name v : Value}
    : ((g.follow first null).setOf (.nonterm name)).has v = true
      ↔ g.PutsBehind first null name v := by
  constructor
  · obtain ⟨m, behind, reached, _⟩ := g.settleFollow_settled null
      (hasEntries_of_keys (g.keys_followSeed first)) (g.AllBehind first null)
      (fun _ => AllBehind.pass) (g.allBehind_followSeed first null)
    rw [follow, reached]
    exact behind.pass name v
  · intro behind
    induction behind with
    | start => exact g.has_follow_start first null
    | next member split proper begins => exact has_follow_of_first null member split proper begins
    | last member split vanish _ ih => exact setOf_lhs_le_follow first member split vanish _ ih

end Grammar

end PredictiveParsing
