import PredictiveParsing.Proofs.AcceptedTrees
import PredictiveParsing.Proofs.ConflictPairs
import PredictiveParsing.Proofs.EmptyDerivations
import PredictiveParsing.Proofs.FollowReasons
import PredictiveParsing.Proofs.Lookaheads

/-! Grammars with the same symbols and some of the rules of another one. All computed sets are
parts of those of the other grammar, so that taking rules away makes no new conflicts.
-/

namespace PredictiveParsing

variable {rules more : Rule → Prop}

/-- With more rules, what vanishes still vanishes, by induction on the reason. -/
theorem Vanishes.mono (hm : ∀ r, rules r → more r) {s : Symbol} (vanishes : Vanishes rules s)
    : Vanishes more s := by
  induction vanishes with
  | rule hr _ ih => exact .rule (hm _ hr) ih

/-- With more rules, what begins a symbol still begins it, by induction on the reason. -/
theorem Begins.mono (hm : ∀ r, rules r → more r) {s : Symbol} {v : Value}
    (begins : Begins rules s v)
    : Begins more s v := by
  induction begins with
  | term name => exact .term name
  | rule hr split erased _ ih =>
      exact .rule (hm _ hr) split (fun x hx => (erased x hx).mono hm) ih

/-- Larger first and follow sets give larger directing sets: a lookahead that begins the body
still does, and a body that can vanish still can.
-/
theorem Rule.directingSet_mono {first larger follow wider : SetMap} (hf : first ≤ larger)
    (hw : follow ≤ wider) (r : Rule)
    : r.directingSet first follow ≤ r.directingSet larger wider := by
  intro v found
  rw [has_directingSet] at found ⊢
  rcases found with ⟨proper, begins⟩ | ⟨vanishes, follows⟩
  · exact Or.inl ⟨proper, SetMap.firstOf_mono hf _ _ begins⟩
  · exact Or.inr ⟨SetMap.firstOf_mono hf _ _ vanishes, hw _ _ follows⟩

theorem Rule.Clashes.mono {first larger follow wider : SetMap} (hf : first ≤ larger)
    (hw : follow ≤ wider) {r s : Rule} (clash : r.Clashes first follow s)
    : r.Clashes larger wider s := by
  obtain ⟨same, v, left, right⟩ := clash
  exact ⟨same, v, r.directingSet_mono hf hw v left, s.directingSet_mono hf hw v right⟩

namespace Grammar

structure SameSymbols (g h : Grammar) : Prop where
  nonterms : ∀ n, n ∈ g.nonterms ↔ n ∈ h.nonterms
  terms : ∀ t, t ∈ g.terms ↔ t ∈ h.terms
  start : g.start = h.start

/-- Only nonterminals have sets that are not empty in a map with the nonterminals as keys. -/
theorem exists_nonterm_of_has {g : Grammar} {m : SetMap} (keys : m.keys = g.nontermValues)
    {k v : Value} (found : (m.setOf k).has v = true)
    : ∃ n ∈ g.nonterms, k = .nonterm (.text n) := by
  obtain ⟨entry, listed, same, _⟩ := SetMap.exists_mem_of_has found
  have key : entry.1 ∈ g.nontermValues := keys ▸ List.mem_map_of_mem listed
  obtain ⟨n, declared, named⟩ := List.mem_map.mp key
  rw [← named] at same
  exact ⟨n, declared, Value.key_eq_nonterm_text.mp same.symm⟩

/-- Only nonterminals that have rules vanish: they are a closed set. -/
theorem nullable_le_heads (g : Grammar) : g.nullable ≤ .ofList (g.rules.map Rule.lhs) := by
  have heads : g.NullableClosed (.ofList (g.rules.map Rule.lhs)) :=
    fun r member _ => ValueSet.has_ofList_of_mem (List.mem_map_of_mem member)
  have seed : g.nullableSeed ≤ .ofList (g.rules.map Rule.lhs) :=
    ValueSet.ofList_mono (List.filter_sublist.map Rule.lhs).subset
  obtain ⟨null, small, reached, _⟩ := g.settleNullable_settled g.nullableSeed
    (fun null => null ≤ .ofList (g.rules.map Rule.lhs)) (fun _ => nullablePass_le heads) seed
  rw [nullable, reached]
  exact nullablePass_le heads small

/-- The computed set of vanishing nonterminals has no other values than nonterminals of rules. -/
theorem exists_rule_of_has_nullable {g : Grammar} {v : Value} (found : g.nullable.has v = true)
    : ∃ r ∈ g.rules, v = r.lhs := by
  have among := g.nullable_le_heads v found
  rw [ValueSet.has_ofList, List.any_eq_true] at among
  obtain ⟨_, listed, same⟩ := among
  obtain ⟨r, member, rfl⟩ := List.mem_map.mp listed
  exact ⟨r, member, eq_lhs_of_key member (of_decide_eq_true same).symm⟩

section Subsets

variable {g h : Grammar} (fewer : ∀ r ∈ g.rules, r ∈ h.rules)

include fewer

/-- With more rules, more nonterminals vanish. -/
theorem nullable_le_of_subset : g.nullable ≤ h.nullable := by
  intro v found
  obtain ⟨r, _, rfl⟩ := exists_rule_of_has_nullable found
  have vanishes : g.Vanishes r.symbol := has_nullable_iff_vanishes.mp found
  have still : h.Vanishes r.symbol := PredictiveParsing.Vanishes.mono fewer vanishes
  exact has_nullable_iff_vanishes.mpr still

/-- With more rules, the first sets are larger. -/
theorem first_le_of_subset : g.first ≤ h.first := by
  intro k v found
  obtain ⟨n, _, rfl⟩ := exists_nonterm_of_has g.keys_first found
  rcases g.explained_first _ v found with ⟨rfl, vanishes⟩ | begins
  · exact Vanishes.has_first (PredictiveParsing.Vanishes.mono fewer vanishes)
  · exact Begins.has_first (PredictiveParsing.Begins.mono fewer begins)

/-- With more rules and larger given sets, the follow sets are larger. -/
theorem follow_le_of_subset (start : g.start = h.start) {first larger : SetMap}
    {null wider : ValueSet} (hf : first ≤ larger) (hn : null ≤ wider)
    : g.follow first null ≤ h.follow larger wider := by
  intro k v found
  obtain ⟨n, _, rfl⟩ := exists_nonterm_of_has (g.keys_follow first null) found
  have behind := PredictiveParsing.PutsBehind.mono fewer hf hn (has_follow_iff_putsBehind.mp found)
  rw [start] at behind
  exact has_follow_iff_putsBehind.mpr behind

theorem ownFollow_le_of_subset (start : g.start = h.start)
    : g.follow g.first g.nullable ≤ h.follow h.first h.nullable :=
  follow_le_of_subset fewer start (first_le_of_subset fewer) (nullable_le_of_subset fewer)

end Subsets

/-- Rules that are taken away clash with no others any more, and those that stay clash only if
they did before, in whatever order they stand.
-/
theorem hasNoConflict_of_subperm {g h : Grammar} {first larger follow wider : SetMap}
    (hf : first ≤ larger) (hw : follow ≤ wider) (fewer : g.rules.Subperm h.rules)
    (none : h.hasNoConflict larger wider = true)
    : g.hasNoConflict first follow = true := by
  obtain ⟨kept, reordered, ordered⟩ := fewer
  have apart := (hasNoConflict_iff_pairwise.mp none).sublist ordered
  rw [reordered.pairwise_iff fun clear clash => clear clash.symm] at apart
  apply hasNoConflict_iff_pairwise.mpr
  exact apart.imp fun clear clash => clear (clash.mono hf hw)

/-- A grammar that loses rules has no new conflicts. -/
theorem isLL1_of_subperm {g h : Grammar} (start : g.start = h.start)
    (fewer : g.rules.Subperm h.rules) (ll1 : h.isLL1 = true)
    : g.isLL1 = true :=
  hasNoConflict_of_subperm (first_le_of_subset fewer.subset)
    (ownFollow_le_of_subset fewer.subset start) fewer ll1

end Grammar

-----------------------------------------------------------------------------------------
-- What is looked up in the computed sets
-----------------------------------------------------------------------------------------

/-- The values that are looked up for the directing set of a rule can be: those of its body, and
its nonterminal if the body can vanish.
-/
def Rule.Selectable (first : SetMap) (r : Rule) : Prop :=
  Value.allHashable r.word = true
  ∧ ((first.firstOf r.word).has .epsilon = true → r.lhs.hashable = true)

theorem Rule.Selectable.anti {first larger : SetMap} (hf : first ≤ larger) {r : Rule}
    (selectable : r.Selectable larger)
    : r.Selectable first :=
  ⟨selectable.1, fun vanishes => selectable.2 (SetMap.firstOf_mono hf _ _ vanishes)⟩

theorem Rule.selectable_of_hashable (first : SetMap) {r : Rule}
    (hashable : r.toValue.hashable = true)
    : r.Selectable first := by
  rw [toValue, Value.hashable, Bool.and_eq_true] at hashable
  exact ⟨hashable.2, fun _ => hashable.1⟩

namespace Predictor

variable {p : Predictor} {r : Rule}

/-- A directing set can be computed if all that is looked up for it can be. -/
theorem select_of_selectable (selectable : r.Selectable p.first)
    : p.select r = .ok (r.directingSet p.first p.follow) := by
  obtain ⟨word, head⟩ := selectable
  rw [select, SetMap.firstOfValue, Value.elements]
  cases vanishes : (p.first.firstOf r.word).has .epsilon with
  | true => simp [bind, Except.bind, Value.checkHashable, word, vanishes, head vanishes]
  | false => simp [bind, Except.bind, word, vanishes]

/-- If something cannot be looked up for a directing set, in the body or in front of it, the fault
is the same.
-/
theorem select_of_not_selectable (unselectable : ¬ r.Selectable p.first)
    : p.select r = .error .unhashable := by
  rw [select, SetMap.firstOfValue, Value.elements]
  cases word : Value.allHashable r.word with
  | false => simp [bind, Except.bind, word]
  | true =>
      rw [Rule.Selectable, word, eq_self, true_and, Classical.not_imp] at unselectable
      obtain ⟨vanishes, head⟩ := unselectable
      simp [bind, Except.bind, Value.checkHashable, word, vanishes, head]

/-- What is selected is the directing set, if all that is looked up for it can be. -/
theorem select_eq_ok_iff {s : ValueSet}
    : p.select r = .ok s ↔ r.Selectable p.first ∧ s = r.directingSet p.first p.follow := by
  by_cases selectable : r.Selectable p.first
  · simp [select_of_selectable selectable, selectable, eq_comm]
  · simp [select_of_not_selectable selectable, selectable]

end Predictor

namespace Grammar

/-- A declared nonterminal has an entry in a map with the nonterminals as keys. -/
theorem get?_of_keys {g : Grammar} {m : SetMap} (keys : m.keys = g.nontermValues) {n : Text}
    (declared : n ∈ g.nonterms)
    : m.get? (.nonterm (.text n)) = some (m.setOf (.nonterm (.text n))) := by
  have present := ValueMap.hasKey_iff_get?.mp (hasEntries_of_keys keys n declared)
  obtain ⟨s, found⟩ := Option.ne_none_iff_exists'.mp present
  rw [SetMap.setOf, found]
  rfl

/-- With the same symbols and some of the rules of another grammar, no more nonterminals can
vanish, each declared nonterminal has a part of its first and follow sets, and each rule has a
part of its directing set, which can be selected if it could be before. A grammar that is LL(1)
stays so when rules are taken away.
-/
theorem sets_of_fewer_rules {g h : Grammar} (symbols : g.SameSymbols h)
    (fewer : g.rules.Sublist h.rules)
    : let less := Predictor.ofGrammar g
      let all := Predictor.ofGrammar h
      less.null.subset all.null = true
      ∧ (∀ n ∈ g.nonterms,
          ∃ s t,
            less.first.get? (.nonterm (.text n)) = some s
            ∧ all.first.get? (.nonterm (.text n)) = some t
            ∧ s.subset t = true)
      ∧ (∀ n ∈ g.nonterms,
          ∃ s t,
            less.follow.get? (.nonterm (.text n)) = some s
            ∧ all.follow.get? (.nonterm (.text n)) = some t
            ∧ s.subset t = true)
      ∧ (∀ r t, all.select r = .ok t → ∃ s, less.select r = .ok s ∧ s.subset t = true)
      ∧ (∀ r, r.toValue.hashable = true → ∃ t, all.select r = .ok t)
      ∧ (h.isLL1 = true → g.isLL1 = true) := by
  intro less all
  have null : less.null ≤ all.null := nullable_le_of_subset fewer.subset
  have first : less.first ≤ all.first := first_le_of_subset fewer.subset
  have follow : less.follow ≤ all.follow := ownFollow_le_of_subset fewer.subset symbols.start
  refine ⟨ValueSet.subset_iff.mpr null, fun n declared => ?_, fun n declared => ?_,
    fun r t selected => ?_, fun r hashable => ?_, isLL1_of_subperm symbols.start fewer.subperm⟩
  · exact ⟨_, _, get?_of_keys g.keys_first declared,
      get?_of_keys h.keys_first ((symbols.nonterms n).mp declared),
      ValueSet.subset_iff.mpr (first _)⟩
  · exact ⟨_, _, get?_of_keys (g.keys_follow _ _) declared,
      get?_of_keys (h.keys_follow _ _) ((symbols.nonterms n).mp declared),
      ValueSet.subset_iff.mpr (follow _)⟩
  · obtain ⟨selectable, rfl⟩ := Predictor.select_eq_ok_iff.mp selected
    exact ⟨_, Predictor.select_eq_ok_iff.mpr ⟨selectable.anti first, rfl⟩,
      ValueSet.subset_iff.mpr (r.directingSet_mono first follow)⟩
  · exact ⟨_, Predictor.select_eq_ok_iff.mpr ⟨Rule.selectable_of_hashable _ hashable, rfl⟩⟩

/-- Brackets without the rule for nothing. -/
def endlessBrackets : Grammar where
  nonterms := brackets.nonterms
  terms := brackets.terms
  rules := brackets.rules.take 1
  start := brackets.start
  nonterms_nodup := brackets.nonterms_nodup
  terms_nodup := brackets.terms_nodup
  nonterms_named := brackets.nonterms_named
  terms_named := brackets.terms_named
  rules_declared := fun r member => brackets.rules_declared r (List.mem_of_mem_take member)
  start_declared := brackets.start_declared

theorem sets_of_fewer_rules_endlessBrackets
    : let empty : Rule := ⟨.text (.ofString "S"), []⟩
      endlessBrackets.SameSymbols brackets
      ∧ endlessBrackets.rules.Sublist brackets.rules
      ∧ empty.toValue.hashable = true
      ∧ (∃ s t,
          (Predictor.ofGrammar endlessBrackets).select empty = .ok s
          ∧ (Predictor.ofGrammar brackets).select empty = .ok t
          ∧ s.subset t = true)
      ∧ brackets.isLL1 = true
      ∧ endlessBrackets.isLL1 = true := by
  intro empty
  have symbols : endlessBrackets.SameSymbols brackets := ⟨fun _ => .rfl, fun _ => .rfl, rfl⟩
  have fewer : endlessBrackets.rules.Sublist brackets.rules := List.take_sublist 1 brackets.rules
  have ll1 : brackets.isLL1 = true := by decide
  obtain ⟨_, _, _, part, selectable, stays⟩ := sets_of_fewer_rules symbols fewer
  obtain ⟨t, all⟩ := selectable empty rfl
  obtain ⟨s, less, subset⟩ := part empty t all
  exact ⟨symbols, fewer, rfl, ⟨s, t, less, all, subset⟩, ll1, stays ll1⟩

end Grammar

end PredictiveParsing
