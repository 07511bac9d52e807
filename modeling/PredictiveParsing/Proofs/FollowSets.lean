import PredictiveParsing.Analysis.Follow
import PredictiveParsing.Proofs.FirstSets

/-! The computed follow sets are closed under the rules: what begins behind a nonterminal in a
body follows it, and so does what follows the rule's own nonterminal if the rest can vanish.
-/

namespace PredictiveParsing.Grammar

/-- Going along a body only adds to the follow sets, by induction on the body. -/
theorem le_followSeedBody (first : SetMap) (body : List Symbol) (follow : SetMap)
    : follow ≤ followSeedBody first body follow := by
  induction body generalizing follow with
  | nil => exact le_refl follow
  | cons s rest ih =>
      cases s with
      | nonterm name => exact (SetMap.le_addAll _ _ _).trans (ih _)
      | term name | endMark => exact ih follow

/-- Going along a body keeps the keys if all nonterminals there have entries, by induction on the
body.
-/
theorem keys_followSeedBody {first : SetMap} {body : List Symbol} {follow : SetMap}
    (entries : ∀ name, .nonterm name ∈ body → follow.hasKey (.nonterm name) = true)
    : (followSeedBody first body follow).keys = follow.keys := by
  induction body generalizing follow with
  | nil => rfl
  | cons s rest ih =>
      have later : ∀ name, .nonterm name ∈ rest → follow.hasKey (.nonterm name) = true :=
        fun name occurs => entries name (List.mem_cons_of_mem s occurs)
      cases s with
      | nonterm name =>
          have same := SetMap.keys_addAll (entries name List.mem_cons_self)
            ((first.firstOf (rest.map Symbol.toValue)).erase .epsilon)
          rw [followSeedBody, ih _, same]
          intro other occurs
          rw [ValueMap.hasKey_eq_of_keys same, later other occurs]
      | term name | endMark => exact ih later

/-- The rest of a body is seen behind each nonterminal, by induction on what stands before. -/
theorem followSeedBody_le (first : SetMap) (before : List Symbol) (name : Value)
    (after : List Symbol) (follow : SetMap)
    : (first.firstOf (after.map Symbol.toValue)).erase .epsilon
      ≤ (followSeedBody first (before ++ .nonterm name :: after) follow).setOf
          (.nonterm name) := by
  induction before generalizing follow with
  | nil =>
      rw [List.nil_append, followSeedBody]
      exact (SetMap.le_setOf_addAll _ _ _).trans (le_followSeedBody first after _ _)
  | cons s before ih =>
      cases s with
      | nonterm other => exact ih _
      | term other | endMark => exact ih follow

/-- A nonterminal is a last one if only members stand behind it, by induction on what stands before.
-/
theorem mem_lastNonterms {null : ValueSet} {after : List Symbol}
    (vanishes : ∀ s ∈ after, null.has s.toValue = true) (before : List Symbol) (name : Value)
    : .nonterm name ∈ lastNonterms null (before ++ .nonterm name :: after) := by
  induction before with
  | nil => simp [lastNonterms, List.all_eq_true.mpr vanishes]
  | cons s before ih =>
      cases s with
      | nonterm other =>
          rw [List.cons_append, lastNonterms]
          split
          · exact List.mem_cons_of_mem _ ih
          · exact ih
      | term other | endMark => exact ih

/-- Behind a last nonterminal stand only members, by induction on the body. -/
theorem split_of_mem_lastNonterms {null : ValueSet} {body : List Symbol} {v : Value}
    (member : v ∈ lastNonterms null body)
    : ∃ before name after,
        body = before ++ .nonterm name :: after
        ∧ (∀ s ∈ after, null.has s.toValue = true)
        ∧ v = .nonterm name := by
  induction body with
  | nil => exact False.elim (List.not_mem_nil member)
  | cons s rest ih =>
      have later (found : v ∈ lastNonterms null rest)
          : ∃ before name after,
              s :: rest = before ++ .nonterm name :: after
              ∧ (∀ s ∈ after, null.has s.toValue = true)
              ∧ v = .nonterm name := by
        obtain ⟨before, name, after, rfl, vanishes, rfl⟩ := ih found
        exact ⟨s :: before, name, after, rfl, vanishes, rfl⟩
      cases s with
      | nonterm name =>
          rw [lastNonterms] at member
          split at member
          · rename_i vanishes
            rcases List.mem_cons.mp member with rfl | found
            · exact ⟨[], name, rest, rfl, List.all_eq_true.mp vanishes, rfl⟩
            · exact later found
          · exact later member
      | term name | endMark => exact later member

theorem le_followRule (null : ValueSet) (follow : SetMap) (r : Rule)
    : follow ≤ followRule null follow r :=
  le_foldl (fun _ _ => SetMap.le_addAll _ _ _) _ follow

theorem le_followPass (g : Grammar) (null : ValueSet) (follow : SetMap)
    : follow ≤ g.followPass null follow :=
  le_foldl (le_followRule null) g.rules follow

/-- What follows the nonterminal of a rule follows every nonterminal behind which the body can
vanish.
-/
theorem setOf_le_followRule {null : ValueSet} {r : Rule} {before after : List Symbol}
    {name : Value} (split : r.body = before ++ .nonterm name :: after)
    (vanishes : ∀ s ∈ after, null.has s.toValue = true) (follow : SetMap)
    : follow.setOf r.lhs ≤ (followRule null follow r).setOf (.nonterm name) := by
  have member := split ▸ mem_lastNonterms vanishes before name
  obtain ⟨seen, below, kept⟩ := exists_step_le_foldl
    (fun follow n => SetMap.le_addAll follow n (follow.setOf r.lhs)) member follow
  calc
    follow.setOf r.lhs
    _ ≤ seen.setOf r.lhs := below r.lhs
    _ ≤ (seen.addAll (.nonterm name) (seen.setOf r.lhs)).setOf (.nonterm name) :=
      SetMap.le_setOf_addAll _ _ _
    _ ≤ (followRule null follow r).setOf (.nonterm name) := kept _

/-- What follows the nonterminal of a rule follows every nonterminal of the body behind which there
are only members of a set.
-/
def FollowClosed (g : Grammar) (null : ValueSet) (follow : SetMap) : Prop :=
  ∀ r ∈ g.rules,
    ∀ before name after,
      r.body = before ++ .nonterm name :: after
      → (∀ s ∈ after, null.has s.toValue = true)
      → follow.setOf r.lhs ≤ follow.setOf (.nonterm name)

/-- A pass only adds what a closed map has to have, whatever rules have been seen before. -/
theorem followPass_le_of_closed {g : Grammar} {null : ValueSet} {follow bound : SetMap}
    (closed : g.FollowClosed null bound) (within : follow ≤ bound)
    : g.followPass null follow ≤ bound := by
  apply foldl_invariant (fun follow => follow ≤ bound) _ within
  intro r member follow small
  apply foldl_invariant (fun follow => follow ≤ bound) _ small
  intro n last seen small
  obtain ⟨before, name, after, split, vanishes, rfl⟩ := split_of_mem_lastNonterms last
  have below := closed r member before name after split vanishes
  exact SetMap.addAll_le small ((small r.lhs).trans below)

/-- A pass that adds nothing leaves a closed map: the step of every rule has its result in it. -/
theorem followClosed_of_settled {g : Grammar} {null : ValueSet} {follow : SetMap}
    (settled : g.followPass null follow ≤ follow)
    : g.FollowClosed null (g.followPass null follow) := by
  intro r member before name after split vanishes
  obtain ⟨seen, below, kept⟩ := exists_step_le_foldl (le_followRule null) member follow
  calc
    (g.followPass null follow).setOf r.lhs
    _ ≤ seen.setOf r.lhs := (settled.trans below) r.lhs
    _ ≤ (followRule null seen r).setOf (.nonterm name) := setOf_le_followRule split vanishes seen
    _ ≤ (g.followPass null follow).setOf (.nonterm name) := kept _

theorem keys_followRule {g : Grammar} {null : ValueSet} {follow : SetMap} {r : Rule}
    (member : r ∈ g.rules) (entries : g.HasEntries follow)
    : (followRule null follow r).keys = follow.keys := by
  apply foldl_invariant (fun m : SetMap => m.keys = follow.keys) _ rfl
  intro n last m keys
  obtain ⟨before, name, after, split, _, rfl⟩ := split_of_mem_lastNonterms last
  have occurs : .nonterm name ∈ r.body := by simp [split]
  rw [SetMap.keys_addAll ((entries.of_keys keys).body member occurs), keys]

theorem keys_followPass {g : Grammar} {null : ValueSet} {follow : SetMap}
    (entries : g.HasEntries follow)
    : (g.followPass null follow).keys = follow.keys := by
  apply foldl_invariant (fun m : SetMap => m.keys = follow.keys) _ rfl
  intro r member m keys
  rw [keys_followRule member (entries.of_keys keys), keys]

/-- A pass adds no value that is in none of the sets. -/
theorem followPass_le {g : Grammar} {null : ValueSet} {follow : SetMap} {bound : ValueSet}
    (within : ∀ k, follow.setOf k ≤ bound)
    : ∀ k, (g.followPass null follow).setOf k ≤ bound := by
  apply foldl_invariant (fun m : SetMap => ∀ k, m.setOf k ≤ bound) _ within
  intro r _ m small
  apply foldl_invariant (fun m : SetMap => ∀ k, m.setOf k ≤ bound) _ small
  exact fun n _ m small => SetMap.setOf_addAll_le small (small r.lhs)

/-- Repeated passes settle from every map with an entry for each nonterminal, since values
only move from one set of the map to another.
-/
theorem settles_follow (g : Grammar) (null : ValueSet) {start : SetMap}
    (entries : g.HasEntries start)
    : settle? SetMap.same (g.followPass null)
        ((start.size + g.firstRange) * start.total + 1) start
      = some (g.settleFollow null start) := by
  apply settle_of_growth (fun m => m.keys = start.keys ∧ ∀ k, m.setOf k ≤ .ofList start.values)
    SetMap.total (start.size * start.total)
  · intro m ⟨keys, small⟩
    exact ⟨(keys_followPass (entries.of_keys keys)).trans keys, followPass_le small⟩
  · intro m ⟨keys, small⟩
    rw [← SetMap.length_values start, ← ValueMap.size_eq_of_keys keys]
    exact SetMap.total_le small
  · intro m ⟨keys, _⟩
    exact SetMap.total_lt_of_changed (keys_followPass (entries.of_keys keys))
      (g.le_followPass null m)
  · exact ⟨rfl, start.setOf_le_values⟩
  · have wide := Nat.mul_le_mul_right start.total (Nat.le_add_right start.size g.firstRange)
    omega

/-- The passes end with one that adds nothing to its map, and what every pass keeps holds of that
map.
-/
theorem settleFollow_settled (g : Grammar) (null : ValueSet) {start : SetMap}
    (entries : g.HasEntries start) (inv : SetMap → Prop)
    (keeps : ∀ m, inv m → inv (g.followPass null m)) (holds : inv start)
    : ∃ m,
        inv m
        ∧ (g.settleFollow null start).state = g.followPass null m
        ∧ g.followPass null m ≤ m := by
  obtain ⟨m, kept, reached, unchanged⟩ :=
    settle?_invariant inv keeps holds (g.settles_follow null entries)
  exact ⟨m, kept, reached, SetMap.le_of_same unchanged⟩

theorem le_followSeed (g : Grammar) (first : SetMap)
    : g.emptySets.addAll g.startSymbol.toValue (.singleton .endMark) ≤ g.followSeed first :=
  le_foldl (fun follow r => le_followSeedBody first r.body follow) g.rules _

theorem keys_followSeed (g : Grammar) (first : SetMap)
    : (g.followSeed first).keys = g.nontermValues := by
  have start : (g.emptySets.addAll g.startSymbol.toValue (.singleton .endMark)).keys
      = g.emptySets.keys :=
    SetMap.keys_addAll (hasEntries_of_keys g.keys_emptySets g.start g.start_declared) _
  apply foldl_invariant (fun m : SetMap => m.keys = g.nontermValues) _
    (start.trans g.keys_emptySets)
  intro r member m keys
  rw [keys_followSeedBody fun name occurs => (hasEntries_of_keys keys).body member occurs, keys]

/-- The follow sets come out of a pass that adds nothing to its map, which is above the start. -/
theorem follow_settled (g : Grammar) (first : SetMap) (null : ValueSet)
    : ∃ m,
        g.followSeed first ≤ m
        ∧ g.follow first null = g.followPass null m
        ∧ g.followPass null m ≤ m :=
  g.settleFollow_settled null (hasEntries_of_keys (g.keys_followSeed first))
    (fun m => g.followSeed first ≤ m) (fun m seeded => seeded.trans (g.le_followPass null m))
    (le_refl _)

theorem keys_follow (g : Grammar) (first : SetMap) (null : ValueSet)
    : (g.follow first null).keys = g.nontermValues := by
  have entries := hasEntries_of_keys (g.keys_followSeed first)
  exact (keys_of_settles (fun _ => keys_followPass) entries (g.settles_follow null entries)).trans
    (g.keys_followSeed first)

theorem hasEntries_follow (g : Grammar) (first : SetMap) (null : ValueSet)
    : g.HasEntries (g.follow first null) :=
  hasEntries_of_keys (g.keys_follow first null)

/-- The passes keep what is there at the start. -/
theorem followSeed_le_follow (g : Grammar) (first : SetMap) (null : ValueSet)
    : g.followSeed first ≤ g.follow first null := by
  obtain ⟨m, seeded, reached, _⟩ := g.follow_settled first null
  rw [reached]
  exact seeded.trans (g.le_followPass null m)

/-- The end mark follows the start symbol. -/
theorem has_follow_start (g : Grammar) (first : SetMap) (null : ValueSet)
    : ((g.follow first null).setOf g.startSymbol.toValue).has .endMark = true := by
  apply g.followSeed_le_follow first null
  apply g.le_followSeed first
  exact SetMap.le_setOf_addAll _ _ _ _ (by simp)

/-- What begins the rest of a body behind a nonterminal follows the nonterminal. -/
theorem has_follow_of_first {g : Grammar} {first : SetMap} (null : ValueSet) {r : Rule}
    (member : r ∈ g.rules) {before after : List Symbol} {name : Value}
    (split : r.body = before ++ .nonterm name :: after) {v : Value} (proper : v ≠ .epsilon)
    (begins : (first.firstOf (after.map Symbol.toValue)).has v = true)
    : ((g.follow first null).setOf (.nonterm name)).has v = true := by
  apply g.followSeed_le_follow first null
  obtain ⟨seen, _, kept⟩ := exists_step_le_foldl
    (fun follow r => le_followSeedBody first r.body follow) member
    (g.emptySets.addAll g.startSymbol.toValue (.singleton .endMark))
  apply kept
  rw [split]
  apply followSeedBody_le
  rw [ValueSet.has_erase, begins]
  simpa [Value.key] using proper

/-- What follows the nonterminal of a rule follows every nonterminal of the body whose rest
can vanish.
-/
theorem setOf_lhs_le_follow {g : Grammar} (first : SetMap) {null : ValueSet} {r : Rule}
    (member : r ∈ g.rules) {before after : List Symbol} {name : Value}
    (split : r.body = before ++ .nonterm name :: after)
    (vanishes : ∀ s ∈ after, null.has s.toValue = true)
    : (g.follow first null).setOf r.lhs ≤ (g.follow first null).setOf (.nonterm name) := by
  obtain ⟨m, _, reached, settled⟩ := g.follow_settled first null
  rw [reached]
  exact followClosed_of_settled settled r member before name after split vanishes

end PredictiveParsing.Grammar
