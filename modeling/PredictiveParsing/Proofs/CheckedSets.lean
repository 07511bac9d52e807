import PredictiveParsing.Analysis.Predictor
import PredictiveParsing.Proofs.CheckedLookUps
import PredictiveParsing.Proofs.FaultlessRuns
import PredictiveParsing.Proofs.FollowSets

/-! The computation of the sets of a grammar with every look-up checked. No check fails, since the
maps have an entry for every nonterminal before and after each pass, and the sets that come out
are those that are computed without checks.
-/

namespace PredictiveParsing

namespace Rule

/-- The first element of the right-hand side as it is written, which has to have one. -/
def firstOnRight (r : Rule) : Except Fault Value :=
  match r.rhs.head? with
  | some v => .ok v
  | none => .error (.missingPart .tuple (.ofString "0"))

/-- The last element of the right-hand side as it is written, which has to have one. -/
def lastOnRight (r : Rule) : Except Fault Value :=
  match r.rhs.getLast? with
  | some v => .ok v
  | none => .error (.missingPart .tuple (.ofString "-1"))

/-- The mark of the empty word that stands for an empty body has the first set of that body. -/
theorem firstOf_rhs (first : SetMap) (r : Rule) : first.firstOf r.rhs = first.firstOf r.word := by
  by_cases empty : r.body = []
  · simp [rhs, word, empty, SetMap.firstOf, SetMap.firstOfSymbol, ValueSet.ringSum]
  · rw [rhs_of_nonempty empty]

end Rule

namespace Grammar

-----------------------------------------------------------------------------------------
-- The nonterminals that vanish
-----------------------------------------------------------------------------------------

def checkedNullableStep (null : ValueSet) (r : Rule) : Except Fault ValueSet := do
  if ← null.check r.lhs then
    .ok null
  else if ← null.checkAll r.rhs then
    .ok (null.insert r.lhs)
  else
    .ok null

/-- The nonterminals that vanish, with all look-ups checked, in at most `fuel` passes. -/
def checkedNullable (g : Grammar) (fuel : Nat) : Except Fault (Option (Settled ValueSet)) := do
  let seed ← ValueSet.ofValue (.list ((g.rules.filter Rule.isEmpty).map Rule.lhs))
  settleChecked? ValueSet.same (fun null => g.rules.foldlM checkedNullableStep null) fuel seed

variable {g : Grammar}

theorem hashable_lhs {r : Rule} (member : r ∈ g.rules) : r.lhs.hashable = true := by
  have declared : r.symbol.Declared g.nonterms g.terms := (g.rules_declared r member).1
  exact declared.hashable

theorem hashable_word {r : Rule} (member : r ∈ g.rules) : ∀ v ∈ r.word, v.hashable = true :=
  List.forall_mem_map.mpr fun s hs => ((g.rules_declared r member).2 s hs).hashable

/-- What stands on the right-hand side of a rule of the grammar can be looked up, the mark of the
empty word included.
-/
theorem hashable_rhs {r : Rule} (member : r ∈ g.rules) : ∀ v ∈ r.rhs, v.hashable = true := by
  by_cases empty : r.body = []
  · simp [Rule.rhs, empty, Value.hashable]
  · rw [Rule.rhs_of_nonempty empty]
    exact hashable_word member

/-- For a rule of the grammar no look-up fails. Adding a nonterminal that is a member already
changes nothing.
-/
theorem checkedNullableStep_eq {r : Rule} (member : r ∈ g.rules) (null : ValueSet)
    : checkedNullableStep null r
      = .ok (if r.rhs.all null.has then null.insert r.lhs else null) := by
  have there (found : null.has r.lhs = true) : null.insert r.lhs = null := by
    rw [ValueSet.insert, dif_pos found]
  rw [checkedNullableStep, null.check_eq (hashable_lhs member),
    null.checkAll_eq (hashable_rhs member)]
  cases found : null.has r.lhs with
  | true => simp [bind, Except.bind, there found]
  | false => cases r.rhs.all null.has <;> rfl

theorem checkedNullablePass_eq (g : Grammar) (null : ValueSet)
    : g.rules.foldlM checkedNullableStep null = .ok (g.nullablePass null) :=
  foldlM_eq_foldl (fun _ => True) (fun _ member null _ => checkedNullableStep_eq member null)
    (fun _ _ _ _ => trivial) trivial

/-- The nonterminals that vanish are those of the plain passes, however many passes are allowed. -/
theorem checkedNullable_eq (g : Grammar) (fuel : Nat)
    : g.checkedNullable fuel
      = .ok (settle? ValueSet.same g.nullablePass fuel g.nullableSeed) := by
  have heads : Value.allHashable ((g.rules.filter Rule.isEmpty).map Rule.lhs) = true :=
    Value.allHashable_iff.mpr
      (List.forall_mem_map.mpr fun r hr => hashable_lhs (List.mem_of_mem_filter hr))
  have seed : ValueSet.ofValue (.list ((g.rules.filter Rule.isEmpty).map Rule.lhs))
      = .ok g.nullableSeed :=
    if_pos heads
  rw [checkedNullable, seed]
  exact settleChecked?_eq (fun _ => True) (fun null _ => g.checkedNullablePass_eq null)
    (fun _ _ => trivial) fuel trivial

/-- No look-up fails while the nonterminals that vanish are computed, and the passes come to an
end.
-/
theorem checkedNullable_settles (g : Grammar)
    : ∃ enough,
        ∀ fuel ≥ enough, g.checkedNullable fuel = .ok (some (g.settleNullable g.nullableSeed)) :=
  ⟨_, fun fuel large => by
    rw [checkedNullable_eq, settle?_mono (g.settles_nullable g.nullableSeed) large]⟩

-----------------------------------------------------------------------------------------
-- First sets
-----------------------------------------------------------------------------------------

def checkedFirstSeedStep (first : SetMap) (r : Rule) : Except Fault SetMap := do
  if r.isEmpty then
    first.extend r.lhs (.singleton .epsilon)
  else
    match ← r.firstOnRight with
    | .term name => do
        (Value.term name).checkHashable
        first.extend r.lhs (.singleton (.term name))
    | _ => .ok first

def checkedFirstStep (first : SetMap) (r : Rule) : Except Fault SetMap := do
  if r.isEmpty then
    .ok first
  else
    let begins ← first.firstOfValue (.tuple r.rhs)
    first.extend r.lhs begins

def checkedFirst (g : Grammar) (fuel : Nat) : Except Fault (Option (Settled SetMap)) := do
  let seed ← g.rules.foldlM checkedFirstSeedStep g.emptySets
  settleChecked? SetMap.same (fun first => g.rules.foldlM checkedFirstStep first) fuel seed

/-- No look-up fails for a rule of the grammar, since its nonterminal has an entry and its
right-hand side is not empty as it is written.
-/
theorem checkedFirstSeedStep_eq {first : SetMap} (entries : g.HasEntries first) {r : Rule}
    (member : r ∈ g.rules)
    : checkedFirstSeedStep first r = .ok (first.addAll r.lhs (firstSeedOf r)) := by
  have present := entries.head member
  have hashable := hashable_lhs member
  rw [checkedFirstSeedStep, Rule.firstOnRight, Rule.isEmpty, Rule.rhs, Rule.word, firstSeedOf]
  cases body : r.body with
  | nil => exact SetMap.extend_eq present hashable _
  | cons s rest =>
      have unchanged : (.ok first : Except Fault SetMap) = .ok (first.addAll r.lhs ∅) :=
        congrArg Except.ok (SetMap.addAll_empty present).symm
      cases s with
      | term name =>
          have inside : Value.term name ∈ r.word := by simp [Rule.word, body, Symbol.toValue]
          have named := hashable_word member _ inside
          change (do (Value.term name).checkHashable; first.extend r.lhs _) = _
          rw [Value.checkHashable_eq named]
          exact SetMap.extend_eq present hashable _
      | nonterm name => exact unchanged
      | endMark => exact unchanged

/-- No look-up fails for a rule of the grammar where every nonterminal has an entry. -/
theorem checkedFirstStep_eq {first : SetMap} (entries : g.HasEntries first) {r : Rule}
    (member : r ∈ g.rules)
    : checkedFirstStep first r
      = .ok (if r.isEmpty then first else first.addAll r.lhs (first.firstOf r.word)) := by
  rw [checkedFirstStep]
  split
  · rfl
  · rw [first.firstOfValue_eq (hashable_rhs member), r.firstOf_rhs]
    exact SetMap.extend_eq (entries.head member) (hashable_lhs member) _

theorem checkedFirstPass_eq {first : SetMap} (entries : g.HasEntries first)
    : g.rules.foldlM checkedFirstStep first = .ok (g.firstPass first) := by
  apply foldlM_eq_foldl g.HasEntries
  · exact fun r member first entries => checkedFirstStep_eq entries member
  · intro r member first entries
    split
    · exact entries
    · exact entries.of_keys (SetMap.keys_addAll (entries.head member) _)
  · exact entries

/-- The first sets are those of the plain passes, however many passes are allowed. -/
theorem checkedFirst_eq (g : Grammar) (fuel : Nat)
    : g.checkedFirst fuel = .ok (settle? SetMap.same g.firstPass fuel g.firstSeed) := by
  have seed : g.rules.foldlM checkedFirstSeedStep g.emptySets = .ok g.firstSeed := by
    apply foldlM_eq_foldl g.HasEntries
    · exact fun r member first entries => checkedFirstSeedStep_eq entries member
    · exact fun r member first entries =>
        entries.of_keys (SetMap.keys_addAll (entries.head member) _)
    · exact hasEntries_of_keys g.keys_emptySets
  rw [checkedFirst, seed]
  exact settleChecked?_eq g.HasEntries (fun _ entries => checkedFirstPass_eq entries)
    (fun _ entries => entries.of_keys (keys_firstPass entries)) fuel
    (hasEntries_of_keys g.keys_firstSeed)

/-- With enough passes the checked first sets settle, where the plain ones do. -/
theorem checkedFirst_settles (g : Grammar)
    : ∃ enough, ∀ fuel ≥ enough, g.checkedFirst fuel = .ok (some (g.settleFirst g.firstSeed)) :=
  have entries := hasEntries_of_keys g.keys_firstSeed
  ⟨_, fun fuel large => by rw [checkedFirst_eq, settle?_mono (g.settles_first entries) large]⟩

-----------------------------------------------------------------------------------------
-- Follow sets
-----------------------------------------------------------------------------------------

/-- Adds what begins the rest of a right-hand side to the follow sets of the nonterminals before
it. The last element has no rest.
-/
def checkedFollowSeedWord (first : SetMap) : List Value → SetMap → Except Fault SetMap
  | v :: next :: rest, follow => do
      let follow ← match v with
        | .nonterm _ => do
            let begins ← first.firstOfValue (.tuple (next :: rest))
            follow.extend v (begins.erase .epsilon)
        | _ => .ok follow
      checkedFollowSeedWord first (next :: rest) follow
  | _, follow => .ok follow

def checkedSpread (source : Value) (follow : SetMap) (k : Value) : Except Fault SetMap := do
  let behind ← follow.lookUp source
  follow.extend k behind

/-- Adds the follow set of a left-hand side to those of the nonterminals of the right-hand side,
but the last, behind which it can vanish.
-/
def checkedFollowWord (null : ValueSet) (lhs : Value) : List Value → SetMap → Except Fault SetMap
  | v :: next :: rest, follow => do
      let follow ← match v with
        | .nonterm _ => do
            if ← null.checkAll (next :: rest) then checkedSpread lhs follow v else .ok follow
        | _ => .ok follow
      checkedFollowWord null lhs (next :: rest) follow
  | _, follow => .ok follow

/-- Adds the follow set of a left-hand side to that of the last element of the right-hand side, if
this is another nonterminal.
-/
def checkedFollowLast (lhs : Value) (follow : SetMap) (last : Value) : Except Fault SetMap :=
  match last with
  | .nonterm _ => if last.key = lhs.key then .ok follow else checkedSpread lhs follow last
  | _ => .ok follow

/-- Adds the follow set of the left-hand side of a rule first to that of the last nonterminal, and
then to those of the nonterminals before it.
-/
def checkedFollowRule (null : ValueSet) (follow : SetMap) (r : Rule) : Except Fault SetMap := do
  let last ← r.lastOnRight
  let follow ← checkedFollowLast r.lhs follow last
  checkedFollowWord null r.lhs r.rhs follow

def checkedFollow (g : Grammar) (first : SetMap) (null : ValueSet) (fuel : Nat)
    : Except Fault (Option (Settled SetMap)) := do
  let start ← g.emptySets.extend g.startSymbol.toValue (.singleton .endMark)
  let seed ← g.rules.foldlM (fun follow r => checkedFollowSeedWord first r.rhs follow) start
  settleChecked? SetMap.same (fun follow => g.rules.foldlM (checkedFollowRule null) follow) fuel seed

/-- Nothing but the empty word stands behind the last symbol, so that the start adds nothing to its
follow set. By induction on the body.
-/
theorem checkedFollowSeedWord_eq (first : SetMap) {body : List Symbol}
    (declared : ∀ s ∈ body, s.Declared g.nonterms g.terms) {follow : SetMap}
    (entries : g.HasEntries follow)
    : checkedFollowSeedWord first (body.map Symbol.toValue) follow
      = .ok (followSeedBody first body follow) := by
  induction body generalizing follow with
  | nil => rfl
  | cons s body ih =>
      obtain ⟨here, later⟩ := List.forall_mem_cons.mp declared
      cases body with
      | nil =>
          cases s with
          | nonterm name =>
              -- the last symbol is not looked at, and the plain start adds nothing to its set
              have none : (first.firstOf []).erase .epsilon = ∅ := rfl
              rw [followSeedBody, List.map_nil, none, SetMap.addAll_empty (entries.declared here)]
              rfl
          | term name => rfl
          | endMark => rfl
      | cons t rest =>
          cases s with
          | nonterm name =>
              have present := entries.declared here
              have named : (Value.nonterm name).hashable = true := here.hashable
              have word : ∀ v ∈ (t :: rest).map Symbol.toValue, v.hashable = true :=
                List.forall_mem_map.mpr fun x hx => (later x hx).hashable
              rw [List.map_cons] at word
              rw [List.map_cons, List.map_cons, Symbol.toValue, checkedFollowSeedWord,
                first.firstOfValue_eq word]
              simp only [bind, Except.bind, SetMap.extend_eq present named]
              exact ih later (entries.of_keys (SetMap.keys_addAll present _))
          | term name => exact ih later entries
          | endMark => exact ih later entries

/-- Adding the follow set of one nonterminal to that of another one does not fail if both are
declared.
-/
theorem checkedSpread_eq {r : Rule} (member : r ∈ g.rules) {m : SetMap}
    (entries : g.HasEntries m) {name : Value}
    (declared : (Symbol.nonterm name).Declared g.nonterms g.terms)
    : checkedSpread r.lhs m (.nonterm name) = .ok (m.spread r.lhs (.nonterm name)) := by
  rw [checkedSpread, SetMap.lookUp_eq (entries.head member) (hashable_lhs member)]
  exact SetMap.extend_eq (entries.declared declared) declared.hashable _

theorem checkedFollowWord_skip {null : ValueSet} {lhs : Value} {s : Symbol}
    (other : ∀ name, s ≠ .nonterm name) {word : List Symbol} (nonempty : word ≠ []) (m : SetMap)
    : checkedFollowWord null lhs ((s :: word).map Symbol.toValue) m
      = checkedFollowWord null lhs (word.map Symbol.toValue) m := by
  obtain ⟨t, rest, rfl⟩ := List.exists_cons_of_ne_nil nonempty
  cases s with
  | nonterm name => exact absurd rfl (other name)
  | term name => rfl
  | endMark => rfl

section Spread

variable {null : ValueSet} {r : Rule} (member : r ∈ g.rules) {m : SetMap}
  (entries : g.HasEntries m)

include entries in
theorem HasEntries.spread {name : Value}
    (declared : (Symbol.nonterm name).Declared g.nonterms g.terms) (source : Value)
    : g.HasEntries (m.spread source (.nonterm name)) :=
  entries.of_keys (SetMap.keys_addAll (entries.declared declared) _)

include entries in
theorem HasEntries.spread_last (null : ValueSet) {last : Symbol}
    (declared : last.Declared g.nonterms g.terms) (source : Value)
    : g.HasEntries ((lastNonterms null [last]).foldl (SetMap.spread source) m) := by
  cases last with
  | nonterm name => exact entries.spread declared source
  | term name => exact entries
  | endMark => exact entries

include entries in
/-- It does not matter whether the last symbol or another one gets the follow set first. -/
theorem HasEntries.spread_last_comm {source name : Value} {last : Symbol}
    (ending : last.Declared g.nonterms g.terms)
    (here : (Symbol.nonterm name).Declared g.nonterms g.terms)
    : SetMap.spread source ((lastNonterms null [last]).foldl (SetMap.spread source) m)
        (.nonterm name)
      = (lastNonterms null [last]).foldl (SetMap.spread source)
          (m.spread source (.nonterm name)) := by
  cases last with
  | nonterm other => exact SetMap.spread_comm (entries.declared ending) (entries.declared here)
  | term other => rfl
  | endMark => rfl

include member entries

/-- A nonterminal before the end of a right-hand side is treated as in a pass without checks. -/
theorem checkedFollowWord_cons {name : Value} {word : List Symbol} (nonempty : word ≠ [])
    (declared : ∀ s ∈ .nonterm name :: word, s.Declared g.nonterms g.terms)
    : checkedFollowWord null r.lhs ((.nonterm name :: word).map Symbol.toValue) m
      = checkedFollowWord null r.lhs (word.map Symbol.toValue)
          (if word.all fun s => null.has s.toValue then m.spread r.lhs (.nonterm name) else m) := by
  obtain ⟨here, later⟩ := List.forall_mem_cons.mp declared
  obtain ⟨t, rest, rfl⟩ := List.exists_cons_of_ne_nil nonempty
  have hashable : ∀ v ∈ (t :: rest).map Symbol.toValue, v.hashable = true :=
    List.forall_mem_map.mpr fun s hs => (later s hs).hashable
  have looked := null.checkAll_eq hashable
  rw [List.all_map, List.map_cons] at looked
  rw [List.map_cons, List.map_cons, Symbol.toValue, checkedFollowWord, looked]
  simp only [bind, Except.bind, Function.comp_def, checkedSpread_eq member entries here]
  split <;> rfl

/-- Adding the follow set of the left-hand side to those of the nonterminals before the last symbol
is the same before and after adding it to that of the last one. By induction on the symbols before
the last, since additions of one set can change places.
-/
theorem checkedFollowWord_eq (front : List Symbol) {last : Symbol}
    (declared : ∀ s ∈ front ++ [last], s.Declared g.nonterms g.terms)
    : checkedFollowWord null r.lhs ((front ++ [last]).map Symbol.toValue)
        ((lastNonterms null [last]).foldl (SetMap.spread r.lhs) m)
      = .ok ((lastNonterms null (front ++ [last])).foldl (SetMap.spread r.lhs) m) := by
  have ending : last.Declared g.nonterms g.terms := declared last (by simp)
  induction front generalizing m with
  | nil => rfl
  | cons s front ih =>
      obtain ⟨here, later⟩ := List.forall_mem_cons.mp declared
      have nonempty : front ++ [last] ≠ [] := by simp
      cases s with
      | nonterm name =>
          have entries' := entries.spread_last null ending r.lhs
          rw [List.cons_append, checkedFollowWord_cons member entries' nonempty declared,
            lastNonterms]
          split
          · rw [entries.spread_last_comm ending here]
            exact ih (entries.spread here r.lhs) later
          · exact ih entries later
      | term name =>
          rw [List.cons_append, checkedFollowWord_skip (by simp) nonempty]
          exact ih entries later
      | endMark =>
          rw [List.cons_append, checkedFollowWord_skip (by simp) nonempty]
          exact ih entries later

/-- The step for the last element is that for the last nonterminal of the body, if it is one. A
nonterminal that is the left-hand side itself gets nothing new.
-/
theorem checkedFollowLast_eq {last : Symbol} (declared : last.Declared g.nonterms g.terms)
    : checkedFollowLast r.lhs m last.toValue
      = .ok ((lastNonterms null [last]).foldl (SetMap.spread r.lhs) m) := by
  cases last with
  | nonterm name =>
      have spreads : (lastNonterms null [.nonterm name]).foldl (SetMap.spread r.lhs) m
          = m.spread r.lhs (.nonterm name) :=
        rfl
      rw [spreads, Symbol.toValue, checkedFollowLast]
      split
      · rename_i same
        rw [SetMap.spread_eq_self (entries.declared declared) same]
      · exact checkedSpread_eq member entries declared
  | term name => rfl
  | endMark => rfl

/-- The step with checked look-ups takes the last nonterminal first, and the plain one takes it
last; the sets that come out are the same.
-/
theorem checkedFollowRule_eq : checkedFollowRule null m r = .ok (followRule null m r) := by
  rw [checkedFollowRule, followRule]
  rcases List.eq_nil_or_concat r.body with empty | ⟨front, last, body⟩
  · simp only [Rule.lastOnRight, Rule.rhs, empty, List.isEmpty_nil, if_true]
    rfl
  · rw [List.concat_eq_append] at body
    have declared := (g.rules_declared r member).2
    have written : r.rhs = (front ++ [last]).map Symbol.toValue := by
      rw [Rule.rhs_of_nonempty (by simp [body]), Rule.word, body]
    -- what is written last is the last symbol, since the body is not empty
    have ending : r.lastOnRight = .ok last.toValue := by simp [Rule.lastOnRight, written]
    rw [body] at declared
    have known : last.Declared g.nonterms g.terms := declared last (by simp)
    have first : checkedFollowLast r.lhs m last.toValue
        = .ok ((lastNonterms null [last]).foldl (SetMap.spread r.lhs) m) :=
      checkedFollowLast_eq member entries known
    rw [ending, written, body]
    simp only [bind, Except.bind, first]
    exact checkedFollowWord_eq member entries front declared

end Spread

theorem checkedFollowPass_eq (null : ValueSet) {follow : SetMap} (entries : g.HasEntries follow)
    : g.rules.foldlM (checkedFollowRule null) follow = .ok (g.followPass null follow) := by
  apply foldlM_eq_foldl g.HasEntries
  · exact fun r member follow entries => checkedFollowRule_eq member entries
  · exact fun r member follow entries => entries.of_keys (keys_followRule member entries)
  · exact entries

/-- The follow sets are those of the plain passes, however many passes are allowed. -/
theorem checkedFollow_eq (g : Grammar) (first : SetMap) (null : ValueSet) (fuel : Nat)
    : g.checkedFollow first null fuel
      = .ok (settle? SetMap.same (g.followPass null) fuel (g.followSeed first)) := by
  have bare := hasEntries_of_keys g.keys_emptySets
  have present : g.emptySets.hasKey g.startSymbol.toValue = true :=
    bare.declared g.start_isDeclared
  have start := SetMap.extend_eq present g.start_isDeclared.hashable (.singleton .endMark)
  have seed : g.rules.foldlM (fun follow r => checkedFollowSeedWord first r.rhs follow)
        (g.emptySets.addAll g.startSymbol.toValue (.singleton .endMark))
      = .ok (g.followSeed first) := by
    apply foldlM_eq_foldl g.HasEntries
    · intro r member follow entries
      have body := checkedFollowSeedWord_eq first (g.rules_declared r member).2 entries
      by_cases empty : r.body = []
      · rw [Rule.rhs, empty]
        rfl
      · rwa [Rule.rhs_of_nonempty empty]
    · intro r member follow entries
      exact entries.of_keys (keys_followSeedBody fun name occurs => entries.body member occurs)
    · exact bare.of_keys (SetMap.keys_addAll present _)
  rw [checkedFollow, start]
  simp only [bind, Except.bind, seed]
  exact settleChecked?_eq g.HasEntries (fun _ entries => checkedFollowPass_eq null entries)
    (fun _ entries => entries.of_keys (keys_followPass entries)) fuel
    (hasEntries_of_keys (g.keys_followSeed first))

/-- With enough passes the checked follow sets settle, where the plain ones do. -/
theorem checkedFollow_settles (g : Grammar) (first : SetMap) (null : ValueSet)
    : ∃ enough,
        ∀ fuel ≥ enough,
          g.checkedFollow first null fuel
            = .ok (some (g.settleFollow null (g.followSeed first))) :=
  ⟨_, fun fuel large => by
    have settles := g.settles_follow null (hasEntries_of_keys (g.keys_followSeed first))
    rw [checkedFollow_eq, settle?_mono settles large]⟩

-----------------------------------------------------------------------------------------
-- All sets
-----------------------------------------------------------------------------------------

/-- The computed sets of a grammar, with all look-ups checked and at most `fuel` passes for each of
them.
-/
def checkedPredictor (g : Grammar) (fuel : Nat) : Except Fault (Option Predictor) := do
  let some null ← g.checkedNullable fuel | return none
  let some first ← g.checkedFirst fuel | return none
  let some follow ← g.checkedFollow first.state null.state fuel | return none
  return some ⟨g, null.state, first.state, follow.state⟩

/-- No look-up fails while the sets are computed, and all passes come to an end. -/
theorem checkedPredictor_settles (g : Grammar)
    : ∃ enough, ∀ fuel ≥ enough, g.checkedPredictor fuel = .ok (some (.ofGrammar g)) := by
  obtain ⟨a, null⟩ := g.checkedNullable_settles
  obtain ⟨b, first⟩ := g.checkedFirst_settles
  obtain ⟨c, follow⟩ := g.checkedFollow_settles g.first g.nullable
  refine ⟨max a (max b c), fun fuel large => ?_⟩
  obtain ⟨la, lb, lc⟩ : a ≤ fuel ∧ b ≤ fuel ∧ c ≤ fuel := by omega
  have last : g.checkedFollow (g.settleFirst g.firstSeed).state
        (g.settleNullable g.nullableSeed).state fuel
      = .ok (some (g.settleFollow g.nullable (g.followSeed g.first))) :=
    follow fuel lc
  rw [checkedPredictor, null fuel la, first fuel lb]
  simp only [bind, Except.bind, last]
  rfl

end Grammar

end PredictiveParsing
