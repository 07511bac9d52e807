import PredictiveParsing.Analysis.Nullable
import PredictiveParsing.Proofs.PassGrowth
import PredictiveParsing.Proofs.SetOrder

/-! Symbols that derive the empty word, as trees of rules, and the computed set that has all of
them.
-/

namespace PredictiveParsing

/-- A symbol vanishes by a rule all of whose symbols vanish. -/
inductive Vanishes (rules : Rule → Prop) : Symbol → Prop where
  | rule {r : Rule} (hr : rules r) (body : ∀ s ∈ r.body, Vanishes rules s)
    : Vanishes rules r.symbol

/-- What holds of a right-hand side as it is written holds of the symbols of a body that has
some.
-/
theorem Rule.all_rhs {r : Rule} (nonempty : r.body ≠ []) {keep : Value → Bool}
    : r.rhs.all keep = true ↔ ∀ s ∈ r.body, keep s.toValue = true := by
  simp [Rule.rhs, Rule.word, nonempty]

namespace Grammar

def Vanishes (g : Grammar) : Symbol → Prop :=
  PredictiveParsing.Vanishes fun r => r ∈ g.rules

theorem head_eq_of_key {g : Grammar} {r : Rule} (member : r ∈ g.rules) {name : Value}
    (equal : r.head.key = name.key)
    : r.head = name := by
  obtain ⟨⟨n, _, hn⟩, _⟩ := g.rules_declared r member
  rw [hn] at equal ⊢
  exact (Value.key_eq_text.mp equal.symm).symm

/-- A rule whose left-hand side counts as a nonterminal is a rule of it, since its name is a text.
-/
theorem symbol_eq_of_key {g : Grammar} {r : Rule} (member : r ∈ g.rules) {name : Value}
    (equal : r.lhs.key = (Value.nonterm name).key)
    : r.symbol = .nonterm name := by
  rw [Rule.symbol, head_eq_of_key member (by simpa [Rule.lhs, Value.key] using equal)]

theorem eq_lhs_of_key {g : Grammar} {r : Rule} (member : r ∈ g.rules) {v : Value}
    (equal : v.key = r.lhs.key)
    : v = r.lhs := by
  obtain ⟨⟨n, _, hn⟩, _⟩ := g.rules_declared r member
  rw [Rule.lhs, hn] at equal ⊢
  exact Value.key_eq_nonterm_text.mp equal

theorem nullableStep_grows (null : ValueSet) (r : Rule)
    : null ≤ if r.rhs.all null.has then null.insert r.lhs else null := by
  split
  · exact ValueSet.le_insert _ _
  · exact le_refl _

/-- A pass only adds to the nonterminals that vanish, since each of its steps does. -/
theorem le_nullablePass (g : Grammar) (null : ValueSet) : null ≤ g.nullablePass null :=
  le_foldl nullableStep_grows g.rules null

/-- A set has the left-hand side of every rule whose right-hand side it has. -/
def NullableClosed (g : Grammar) (null : ValueSet) : Prop :=
  ∀ r ∈ g.rules, (∀ v ∈ r.rhs, null.has v = true) → null.has r.lhs = true

/-- A pass only adds what a closed set has to have, whatever rules have been seen before. -/
theorem nullablePass_le {g : Grammar} {null bound : ValueSet} (closed : g.NullableClosed bound)
    (within : null ≤ bound)
    : g.nullablePass null ≤ bound := by
  apply foldl_invariant (fun null => null ≤ bound) _ within
  intro r member null small
  split
  · rename_i all
    intro v found
    rw [ValueSet.has_insert, Bool.or_eq_true, decide_eq_true_eq] at found
    rcases found with same | old
    · rw [← bound.has_congr same]
      exact closed r member fun x hx => small x (List.all_eq_true.mp all x hx)
    · exact small v old
  · exact small

/-- A pass that adds nothing leaves a closed set: the step of every rule has its result in it. -/
theorem nullableClosed_of_settled {g : Grammar} {null : ValueSet}
    (settled : g.nullablePass null ≤ null)
    : g.NullableClosed (g.nullablePass null) := by
  intro r member body
  obtain ⟨seen, below, kept⟩ := exists_step_le_foldl nullableStep_grows member null
  have all : r.rhs.all seen.has = true :=
    List.all_eq_true.mpr fun v hv => (settled.trans below) v (body v hv)
  apply kept
  rw [if_pos all, ValueSet.has_insert]
  simp

/-- Repeated passes settle from every set: there are no more values to add than rules. -/
theorem settles_nullable (g : Grammar) (start : ValueSet)
    : settle? ValueSet.same g.nullablePass (g.rules.length + 1) start
      = some (g.settleNullable start) := by
  let range := start.items ++ g.rules.map Rule.lhs
  have heads : ∀ r ∈ g.rules, (ValueSet.ofList range).has r.lhs = true := fun r member =>
    ValueSet.has_ofList_of_mem (List.mem_append_right _ (List.mem_map.mpr ⟨r, member, rfl⟩))
  have within : start ≤ .ofList range := by
    intro v found
    obtain ⟨w, hw, same⟩ := ValueSet.has_iff.mp found
    rw [← (ValueSet.ofList range).has_congr same]
    exact ValueSet.has_ofList_of_mem (List.mem_append_left _ hw)
  apply settle_of_growth (fun null => null ≤ .ofList range) ValueSet.size range.length
  · exact fun null small => nullablePass_le (fun r member _ => heads r member) small
  · exact fun null small => ValueSet.size_le_length small
  · exact fun null _ => ValueSet.size_lt_of_changed (le_nullablePass g null)
  · exact within
  · simp only [range, List.length_append, List.length_map, ValueSet.size]
    omega

/-- The passes end with one that adds nothing to its set, and what every pass keeps holds of that
set.
-/
theorem settleNullable_settled (g : Grammar) (start : ValueSet) (inv : ValueSet → Prop)
    (keeps : ∀ null, inv null → inv (g.nullablePass null)) (holds : inv start)
    : ∃ null,
        inv null
        ∧ (g.settleNullable start).state = g.nullablePass null
        ∧ g.nullablePass null ≤ null := by
  obtain ⟨null, kept, reached, unchanged⟩ :=
    settle?_invariant inv keeps holds (g.settles_nullable start)
  exact ⟨null, kept, reached, (ValueSet.same_iff_le.mp unchanged).1⟩

theorem has_nullableSeed {g : Grammar} {r : Rule} (member : r ∈ g.rules) (empty : r.body = [])
    : g.nullableSeed.has r.lhs = true := by
  apply ValueSet.has_ofList_of_mem
  refine List.mem_map.mpr ⟨r, List.mem_filter.mpr ⟨member, ?_⟩, rfl⟩
  simp [Rule.isEmpty, empty]

/-- A left-hand side is in the computed set as soon as its body is: an empty rule is part of
the start, and any other one has its step in the last pass.
-/
theorem has_nullable_of_body {g : Grammar} {r : Rule} (member : r ∈ g.rules)
    (body : ∀ s ∈ r.body, g.nullable.has s.toValue = true)
    : g.nullable.has r.lhs = true := by
  obtain ⟨null, seeded, reached, settled⟩ := g.settleNullable_settled g.nullableSeed
    (fun null => g.nullableSeed ≤ null)
    (fun null below => below.trans (le_nullablePass g null)) (le_refl _)
  rw [nullable, reached] at body ⊢
  by_cases empty : r.body = []
  · exact (seeded.trans (le_nullablePass g null)) _ (has_nullableSeed member empty)
  · have all := (Rule.all_rhs empty).mpr body
    exact nullableClosed_of_settled settled r member (List.all_eq_true.mp all)

/-- The computed set has every symbol that vanishes, by induction on how it does. -/
theorem Vanishes.has_nullable {g : Grammar} {s : Symbol} (vanishes : g.Vanishes s)
    : g.nullable.has s.toValue = true := by
  induction vanishes with
  | rule member _ ih => exact has_nullable_of_body member ih

end Grammar

end PredictiveParsing
