import PredictiveParsing.Proofs.RingSums
import PredictiveParsing.Proofs.VanishingSymbols

/-! The computed first sets are closed under the rules, and each of their values is explained
by a tree of rules: the symbol vanishes, or the value begins what it derives.
-/

namespace PredictiveParsing

/-- A terminal begins what it derives itself, and what a rule derives once all symbols before
it in the body vanish.
-/
inductive Begins (rules : Rule → Prop) : Symbol → Value → Prop where
  | term (name : Value) : Begins rules (.term name) (.term name)
  | rule {r : Rule} {before after : List Symbol} {s : Symbol} {v : Value} (hr : rules r)
    (split : r.body = before ++ s :: after) (erased : ∀ x ∈ before, Vanishes rules x)
    (head : Begins rules s v)
    : Begins rules r.symbol v

namespace Grammar

def Begins (g : Grammar) : Symbol → Value → Prop :=
  PredictiveParsing.Begins fun r => r ∈ g.rules

/-- Nothing begins with the mark of the empty word, by induction on the reason why it would. -/
theorem not_begins_epsilon {g : Grammar} (s : Symbol) : ¬ g.Begins s .epsilon := by
  intro begins
  generalize mark : Value.epsilon = v at begins
  induction begins with
  | term name => cases mark
  | rule _ _ _ _ ih => exact ih mark

/-- The reason for which a first set holds a value. -/
def Explains (g : Grammar) (s : Symbol) (v : Value) : Prop :=
  (v = .epsilon ∧ g.Vanishes s) ∨ g.Begins s v

def Explained (g : Grammar) (first : SetMap) : Prop :=
  ∀ name v, (first.setOf (.nonterm name)).has v = true → g.Explains (.nonterm name) v

def HasEntries (g : Grammar) (m : SetMap) : Prop :=
  ∀ n ∈ g.nonterms, m.hasKey (.nonterm (.text n)) = true

theorem HasEntries.of_keys {g : Grammar} {m n : SetMap} (entries : g.HasEntries m)
    (keys : n.keys = m.keys)
    : g.HasEntries n := by
  intro t declared
  rw [ValueMap.hasKey_eq_of_keys keys, entries t declared]

theorem HasEntries.declared {g : Grammar} {m : SetMap} (entries : g.HasEntries m) {name : Value}
    (declared : (Symbol.nonterm name).Declared g.nonterms g.terms)
    : m.hasKey (.nonterm name) = true := by
  obtain ⟨n, known, rfl⟩ := declared
  exact entries n known

theorem HasEntries.head {g : Grammar} {m : SetMap} (entries : g.HasEntries m) {r : Rule}
    (member : r ∈ g.rules)
    : m.hasKey r.lhs = true :=
  entries.declared (g.rules_declared r member).1

theorem HasEntries.body {g : Grammar} {m : SetMap} (entries : g.HasEntries m) {r : Rule}
    (member : r ∈ g.rules) {name : Value} (occurs : .nonterm name ∈ r.body)
    : m.hasKey (.nonterm name) = true :=
  entries.declared ((g.rules_declared r member).2 _ occurs)

/-- No two declared nonterminals count as one, since their names are different texts. -/
theorem distinct_nontermValues (g : Grammar) : (g.nontermValues.map Value.key).Nodup := by
  rw [nontermValues, List.map_map]
  refine List.Nodup.map_on (fun n _ m _ same => ?_) g.nonterms_nodup
  simpa [Value.key] using same

/-- A map that is made with the same element for each nonterminal has these as keys. -/
theorem keys_ofNonterms (g : Grammar) {β : Type} (b : β)
    : (ValueMap.ofList (g.nontermValues.map fun n => (n, b))).keys = g.nontermValues := by
  have entries : (g.nontermValues.map fun n => (n, b)).map Prod.fst = g.nontermValues := by
    rw [List.map_map]
    exact List.map_id _
  have keys := ValueMap.keys_ofList (entries.symm ▸ g.distinct_nontermValues)
  exact keys.trans entries

theorem hasKey_of_keys {g : Grammar} {β : Type} {m : ValueMap β}
    (keys : m.keys = g.nontermValues) {n : Text} (declared : n ∈ g.nonterms)
    : m.hasKey (.nonterm (.text n)) = true := by
  rw [ValueMap.hasKey_iff_keys, keys]
  exact ⟨_, List.mem_map.mpr ⟨n, declared, rfl⟩, rfl⟩

theorem hasKey_lhs_of_keys {g : Grammar} {β : Type} {m : ValueMap β}
    (keys : m.keys = g.nontermValues) {r : Rule} (member : r ∈ g.rules)
    : m.hasKey r.lhs = true := by
  obtain ⟨⟨n, declared, head⟩, _⟩ := g.rules_declared r member
  rw [Rule.lhs, head]
  exact hasKey_of_keys keys declared

theorem keys_emptySets (g : Grammar) : g.emptySets.keys = g.nontermValues :=
  g.keys_ofNonterms ∅

theorem hasEntries_of_keys {g : Grammar} {m : SetMap} (keys : m.keys = g.nontermValues)
    : g.HasEntries m :=
  fun _ declared => hasKey_of_keys keys declared

/-- At first every set is empty, whether or not its key has an entry. -/
theorem setOf_emptySets (g : Grammar) (k : Value) : g.emptySets.setOf k = ∅ := by
  rw [SetMap.setOf]
  cases found : g.emptySets.get? k with
  | none => rfl
  | some s =>
      rw [emptySets, ValueMap.get?_ofList] at found
      obtain ⟨entry, hf, rfl⟩ := Option.map_eq_some_iff.mp found
      obtain ⟨_, _, rfl⟩ := List.mem_map.mp
        (List.mem_reverse.mp (List.mem_of_find?_eq_some hf))
      rfl

-----------------------------------------------------------------------------------------
-- Repeated passes settle
-----------------------------------------------------------------------------------------

theorem firstStep_grows (first : SetMap) (r : Rule)
    : first ≤ if r.isEmpty then first else first.addAll r.lhs (first.firstOf r.word) := by
  split
  · exact le_refl _
  · exact SetMap.le_addAll _ _ _

theorem le_firstPass (g : Grammar) (first : SetMap) : first ≤ g.firstPass first :=
  le_foldl firstStep_grows g.rules first

/-- The first set of the body of every rule that is not empty is part of that of its nonterminal. -/
def FirstClosed (g : Grammar) (first : SetMap) : Prop :=
  ∀ r ∈ g.rules, r.body ≠ [] → first.firstOf r.word ≤ first.setOf r.lhs

/-- A pass only adds what a closed map has to have, whatever rules have been seen before: larger
sets only make first sets larger.
-/
theorem firstPass_le_of_closed {g : Grammar} {first bound : SetMap} (closed : g.FirstClosed bound)
    (within : first ≤ bound)
    : g.firstPass first ≤ bound := by
  apply foldl_invariant (fun first => first ≤ bound) _ within
  intro r member seen small
  split
  · exact small
  · rename_i nonempty
    have body : r.body ≠ [] := by simpa [Rule.isEmpty] using nonempty
    exact SetMap.addAll_le small ((SetMap.firstOf_mono small r.word).trans (closed r member body))

/-- A pass that adds nothing leaves a closed map: the step of every rule has its result in it. -/
theorem firstClosed_of_settled {g : Grammar} {first : SetMap} (settled : g.firstPass first ≤ first)
    : g.FirstClosed (g.firstPass first) := by
  intro r member body
  obtain ⟨seen, below, kept⟩ := exists_step_le_foldl firstStep_grows member first
  have nonempty : r.isEmpty = false := by simp [Rule.isEmpty, body]
  rw [nonempty] at kept
  calc
    SetMap.firstOf (g.firstPass first) r.word
    _ ≤ seen.firstOf r.word := SetMap.firstOf_mono (settled.trans below) r.word
    _ ≤ (seen.addAll r.lhs (seen.firstOf r.word)).setOf r.lhs := SetMap.le_setOf_addAll _ _ _
    _ ≤ (g.firstPass first).setOf r.lhs := kept r.lhs

/-- A pass keeps the keys, since the nonterminals of all rules have entries. -/
theorem keys_firstPass {g : Grammar} {first : SetMap} (entries : g.HasEntries first)
    : (g.firstPass first).keys = first.keys := by
  apply foldl_invariant (fun m : SetMap => m.keys = first.keys) _ rfl
  intro r member m keys
  split
  · exact keys
  · rw [SetMap.keys_addAll (entries.of_keys keys |>.head member), keys]

/-- A pass adds nothing but symbols of the bodies, the mark of the empty word, and what is in some
set already.
-/
theorem firstPass_le {g : Grammar} {first : SetMap} {bound : ValueSet}
    (within : ∀ k, first.setOf k ≤ bound)
    (symbols : ∀ r ∈ g.rules, ∀ x ∈ r.word, bound.has x = true)
    (mark : bound.has .epsilon = true)
    : ∀ k, (g.firstPass first).setOf k ≤ bound := by
  apply foldl_invariant (fun m : SetMap => ∀ k, m.setOf k ≤ bound) _ within
  intro r member m small
  split
  · exact small
  · exact SetMap.setOf_addAll_le small (SetMap.firstOf_le small (symbols r member) mark)

theorem length_bodies (g : Grammar)
    : (g.rules.flatMap Rule.word ++ [Value.epsilon]).length = g.firstRange := by
  rw [firstRange]
  induction g.rules with
  | nil => rfl
  | cons r rules ih =>
      rw [List.flatMap_cons, List.append_assoc, List.length_append, ih, List.foldr_cons,
        Rule.word, List.length_map]

/-- Repeated passes settle from every map with the left-hand sides as keys: every set can only
gain values of the map, symbols of bodies and the mark of the empty word.
-/
theorem settles_first (g : Grammar) {start : SetMap} (entries : g.HasEntries start)
    : settle? SetMap.same g.firstPass
        ((start.size + g.rules.length) * (start.total + g.firstRange) + 1) start
      = some (g.settleFirst start) := by
  let range := start.values ++ (g.rules.flatMap Rule.word ++ [.epsilon])
  have symbols : ∀ r ∈ g.rules, ∀ x ∈ r.word, (ValueSet.ofList range).has x = true := by
    intro r member x hx
    apply ValueSet.has_ofList_of_mem
    simp only [range, List.mem_append, List.mem_flatMap]
    exact Or.inr (Or.inl ⟨r, member, hx⟩)
  have mark : (ValueSet.ofList range).has .epsilon = true :=
    ValueSet.has_ofList_of_mem (by simp [range])
  have within : ∀ k, start.setOf k ≤ .ofList range := fun k =>
    (start.setOf_le_values k).trans (ValueSet.ofList_mono (List.subset_append_left _ _))
  apply settle_of_growth (fun m => m.keys = start.keys ∧ ∀ k, m.setOf k ≤ .ofList range)
    SetMap.total (start.size * range.length)
  · intro m ⟨keys, small⟩
    exact ⟨(keys_firstPass (entries.of_keys keys)).trans keys, firstPass_le small symbols mark⟩
  · intro m ⟨keys, small⟩
    exact ValueMap.size_eq_of_keys keys ▸ SetMap.total_le small
  · intro m ⟨keys, _⟩
    exact SetMap.total_lt_of_changed (keys_firstPass (entries.of_keys keys)) (le_firstPass g m)
  · exact ⟨rfl, within⟩
  · have length : range.length = start.total + g.firstRange := by
      rw [List.length_append, SetMap.length_values, length_bodies]
    have wide := Nat.mul_le_mul_right range.length (Nat.le_add_right start.size g.rules.length)
    rw [← length]
    omega

/-- The keys of a map stay while passes settle that keep them. -/
theorem keys_of_settles {g : Grammar} {pass : SetMap → SetMap}
    (keeps : ∀ m, g.HasEntries m → (pass m).keys = m.keys) {start : SetMap}
    (entries : g.HasEntries start) {fuel : Nat} {r : Settled SetMap}
    (found : settle? SetMap.same pass fuel start = some r)
    : r.state.keys = start.keys := by
  have kept (m : SetMap) (keys : m.keys = start.keys) : (pass m).keys = start.keys :=
    (keeps m (entries.of_keys keys)).trans keys
  obtain ⟨m, keys, reached, _⟩ := settle?_invariant (fun m => m.keys = start.keys) kept rfl found
  rw [reached]
  exact kept m keys

/-- The passes end with one that adds nothing to its map, and what every pass keeps holds of that
map.
-/
theorem settleFirst_settled (g : Grammar) {start : SetMap} (entries : g.HasEntries start)
    (inv : SetMap → Prop) (keeps : ∀ m, inv m → inv (g.firstPass m)) (holds : inv start)
    : ∃ m,
        inv m
        ∧ (g.settleFirst start).state = g.firstPass m
        ∧ g.firstPass m ≤ m := by
  obtain ⟨m, kept, reached, unchanged⟩ :=
    settle?_invariant inv keeps holds (g.settles_first entries)
  exact ⟨m, kept, reached, SetMap.le_of_same unchanged⟩

-----------------------------------------------------------------------------------------
-- Each value has a reason
-----------------------------------------------------------------------------------------

/-- Adding a set keeps it that all values have reasons, if those of the added set do. -/
theorem Explained.addAll {g : Grammar} {first : SetMap} (explained : g.Explained first)
    {r : Rule} (member : r ∈ g.rules) {s : ValueSet}
    (reasons : ∀ v, s.has v = true → g.Explains r.symbol v)
    : g.Explained (first.addAll r.lhs s) := by
  intro name v found
  rcases SetMap.has_setOf_addAll.mp found with old | ⟨same, new⟩
  · exact explained name v old
  · exact symbol_eq_of_key member same ▸ reasons v new

/-- The values in the first set of a declared symbol are there for a reason, by the kind of the
symbol.
-/
theorem Explained.symbol {g : Grammar} {first : SetMap} (explained : g.Explained first)
    {s : Symbol} (declared : s.Declared g.nonterms g.terms) {v : Value}
    (found : (first.firstOfSymbol s.toValue).has v = true)
    : g.Explains s v := by
  cases s with
  | nonterm name => exact explained name v found
  | term name =>
      obtain ⟨t, _, rfl⟩ := declared
      simp only [Symbol.toValue, SetMap.firstOfSymbol, ValueSet.has_singleton,
        decide_eq_true_eq] at found
      rw [Value.key_eq_term_text.mp found.symm]
      exact Or.inr (.term _)
  | endMark => exact False.elim declared

/-- A terminal never vanishes, so the mark of the empty word tells that a symbol does. -/
theorem Explained.vanishes {g : Grammar} {first : SetMap} (explained : g.Explained first)
    {s : Symbol} (declared : s.Declared g.nonterms g.terms)
    (found : (first.firstOfSymbol s.toValue).has .epsilon = true)
    : g.Vanishes s := by
  rcases explained.symbol declared found with ⟨_, vanishes⟩ | begins
  · exact vanishes
  · exact absurd begins (not_begins_epsilon s)

section Words

variable {g : Grammar} {first : SetMap} (explained : g.Explained first) {word : List Symbol}
  (declared : ∀ s ∈ word, s.Declared g.nonterms g.terms)

include explained declared

/-- The mark of the empty word tells that all symbols of a word vanish. -/
theorem Explained.vanish_of_firstOf
    (mark : (first.firstOf (word.map Symbol.toValue)).has .epsilon = true)
    : ∀ s ∈ word, g.Vanishes s := fun s hs =>
  explained.vanishes (declared s hs)
    (SetMap.has_epsilon_firstOf.mp mark _ (List.mem_map_of_mem hs))

/-- Any other value begins a symbol of the word, and the symbols before it vanish. -/
theorem Explained.begins_of_firstOf {v : Value} (proper : v ≠ .epsilon)
    (found : (first.firstOf (word.map Symbol.toValue)).has v = true)
    : ∃ before s after,
        word = before ++ s :: after ∧ (∀ x ∈ before, g.Vanishes x) ∧ g.Begins s v := by
  obtain ⟨before, s, after, rfl, erased, here⟩ := (SetMap.has_firstOf_body proper).mp found
  refine ⟨before, s, after, rfl, fun x hx => ?_, ?_⟩
  · exact explained.vanishes (declared x (by simp [hx])) (erased x hx)
  · exact (explained.symbol (declared s (by simp)) here).resolve_left fun ⟨h, _⟩ => proper h

end Words

/-- The values in the first set of a rule's body are there for reasons that are also reasons for its
nonterminal.
-/
theorem Explained.firstOf {g : Grammar} {first : SetMap} (explained : g.Explained first)
    {r : Rule} (member : r ∈ g.rules) {v : Value} (found : (first.firstOf r.word).has v = true)
    : g.Explains r.symbol v := by
  have declared := (g.rules_declared r member).2
  by_cases mark : v = .epsilon
  · subst mark
    exact Or.inl ⟨rfl, .rule member (explained.vanish_of_firstOf declared found)⟩
  · obtain ⟨before, s, after, split, erased, begins⟩ :=
      explained.begins_of_firstOf declared mark found
    exact Or.inr (.rule member split erased begins)

theorem Explained.firstPass {g : Grammar} {first : SetMap} (explained : g.Explained first)
    : g.Explained (g.firstPass first) := by
  apply foldl_invariant g.Explained _ explained
  intro r member m sofar
  split
  · exact sofar
  · exact sofar.addAll member fun v found => sofar.firstOf member found

theorem keys_firstSeed (g : Grammar) : g.firstSeed.keys = g.nontermValues := by
  apply foldl_invariant (fun m : SetMap => m.keys = g.nontermValues) _ g.keys_emptySets
  intro r member m keys
  rw [SetMap.keys_addAll ((hasEntries_of_keys keys).head member), keys]

/-- At the start all values have reasons: an empty rule lets its nonterminal vanish, and a terminal
in front begins the body.
-/
theorem explained_firstSeed (g : Grammar) : g.Explained g.firstSeed := by
  apply foldl_invariant g.Explained
  · intro r member m sofar
    apply sofar.addAll member
    intro v found
    have declared := (g.rules_declared r member).2
    unfold firstSeedOf at found
    split at found
    · rename_i empty
      rw [ValueSet.has_singleton, decide_eq_true_eq] at found
      exact Or.inl ⟨Value.key_eq_epsilon.mp found.symm, .rule member (by simp [empty])⟩
    · rename_i name rest body
      rw [body] at declared
      obtain ⟨t, _, rfl⟩ := declared (.term name) (by simp)
      rw [ValueSet.has_singleton, decide_eq_true_eq] at found
      rw [Value.key_eq_term_text.mp found.symm]
      have split : r.body = [] ++ .term (.text t) :: rest := body
      exact Or.inr (.rule member split (by simp) (.term _))
    · simp at found
  · intro name v found
    simp [setOf_emptySets] at found

/-- What a rule gives at the start is there when all rules have been taken. -/
theorem firstSeed_le {g : Grammar} {r : Rule} (member : r ∈ g.rules)
    : firstSeedOf r ≤ g.firstSeed.setOf r.lhs := by
  have grows (first : SetMap) (r : Rule) : first ≤ first.addAll r.lhs (firstSeedOf r) :=
    SetMap.le_addAll first r.lhs (firstSeedOf r)
  obtain ⟨m, _, kept⟩ := exists_step_le_foldl grows member g.emptySets
  exact (SetMap.le_setOf_addAll _ _ _).trans (kept r.lhs)

/-- The first sets come out of a pass that adds nothing to its map. That map is above the start and
has a reason for each value.
-/
theorem first_settled (g : Grammar)
    : ∃ m,
        (g.firstSeed ≤ m ∧ g.Explained m)
        ∧ g.first = g.firstPass m
        ∧ g.firstPass m ≤ m :=
  g.settleFirst_settled (hasEntries_of_keys g.keys_firstSeed)
    (fun m => g.firstSeed ≤ m ∧ g.Explained m)
    (fun m ⟨seeded, explained⟩ => ⟨seeded.trans (g.le_firstPass m), explained.firstPass⟩)
    ⟨le_refl _, g.explained_firstSeed⟩

theorem keys_first (g : Grammar) : g.first.keys = g.nontermValues := by
  have entries := hasEntries_of_keys g.keys_firstSeed
  exact (keys_of_settles (fun _ => keys_firstPass) entries (g.settles_first entries)).trans
    g.keys_firstSeed

/-- Each value of a computed first set has a reason. -/
theorem explained_first (g : Grammar) : g.Explained g.first := by
  obtain ⟨m, ⟨_, explained⟩, reached, _⟩ := g.first_settled
  rw [reached]
  exact explained.firstPass

/-- The first set of a body is part of that of its nonterminal: an empty rule is part of the
start, and any other one has its step in the last pass.
-/
theorem firstOf_le_first {g : Grammar} {r : Rule} (member : r ∈ g.rules)
    : g.first.firstOf r.word ≤ g.first.setOf r.lhs := by
  obtain ⟨m, ⟨seeded, _⟩, reached, settled⟩ := g.first_settled
  rw [reached]
  -- passes leave out empty rules, whose mark is there from the start
  by_cases empty : r.body = []
  · have seed : firstSeedOf r = .singleton .epsilon := by simp [firstSeedOf, empty]
    have word : SetMap.firstOf (g.firstPass m) r.word = .singleton .epsilon := by
      simp [SetMap.firstOf, Rule.word, empty, ValueSet.ringSum]
    rw [word, ← seed]
    exact (firstSeed_le member).trans ((seeded.trans (g.le_firstPass m)) r.lhs)
  · exact firstClosed_of_settled settled r member empty

/-- A symbol that vanishes has the mark of the empty word, by induction on how it does. -/
theorem Vanishes.has_first {g : Grammar} {s : Symbol} (vanishes : g.Vanishes s)
    : (g.first.firstOfSymbol s.toValue).has .epsilon = true := by
  induction vanishes with
  | rule member _ ih =>
      apply firstOf_le_first member
      exact SetMap.has_epsilon_firstOf.mpr (List.forall_mem_map.mpr ih)

theorem has_epsilon_of_vanishes {g : Grammar} {word : List Symbol}
    (vanish : ∀ s ∈ word, g.Vanishes s)
    : (g.first.firstOf (word.map Symbol.toValue)).has .epsilon = true :=
  SetMap.has_epsilon_firstOf.mpr (List.forall_mem_map.mpr fun s hs => (vanish s hs).has_first)

theorem Begins.ne_epsilon {g : Grammar} {s : Symbol} {v : Value} (begins : g.Begins s v)
    : v ≠ .epsilon :=
  fun mark => not_begins_epsilon s (mark ▸ begins)

/-- What begins a derivation is in the first set, by induction on how it does. -/
theorem Begins.has_first {g : Grammar} {s : Symbol} {v : Value} (begins : g.Begins s v)
    : (g.first.firstOfSymbol s.toValue).has v = true := by
  induction begins with
  | term name => simp [Symbol.toValue, SetMap.firstOfSymbol]
  | @rule r before after s v member split erased head ih =>
      apply firstOf_le_first member
      have proper : v ≠ .epsilon := Begins.ne_epsilon head
      exact (SetMap.has_firstOf_body proper).mpr
        ⟨before, s, after, split, fun x hx => Vanishes.has_first (erased x hx), ih⟩

end Grammar

end PredictiveParsing
