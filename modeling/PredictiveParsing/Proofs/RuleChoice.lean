import PredictiveParsing.Proofs.ConflictPairs
import PredictiveParsing.Proofs.Lookaheads
import PredictiveParsing.Table

/-! The rule that a table holds for a nonterminal and a lookahead. The last rule that the
lookahead selects keeps the cell, and without conflicts there is only one.
-/

namespace PredictiveParsing

namespace Table

/-- Entering a rule changes its own cell and no other. -/
theorem cell?_put (t : Table) (r : Rule) (la n v : Value)
    : (t.put r la).cell? n v
      = if r.lhs.key = n.key ∧ la.key = v.key then some r else t.cell? n v := by
  rw [put, cell?, ValueMap.get?_insert]
  by_cases row : r.lhs.key = n.key
  · rw [if_pos row, Option.bind_some, ValueMap.get?_insert, cell?, ValueMap.get?_congr t row]
    by_cases column : la.key = v.key
    · simp [row, column]
    · cases t.get? n <;> simp [row, column]
  · simp [row, cell?]

end Table

namespace Filling

/-- A cell holds the rule if it is in the rule's row under one of the lookaheads, by induction
on the lookaheads.
-/
theorem cell?_foldl_put (r : Rule) (lookaheads : List Value) (f : Filling) (n v : Value)
    : (lookaheads.foldl (put r) f).table.cell? n v
      = if r.lhs.key = n.key ∧ ∃ la ∈ lookaheads, la.key = v.key then some r
        else f.table.cell? n v := by
  induction lookaheads generalizing f with
  | nil => simp
  | cons la lookaheads ih =>
      simp only [List.foldl_cons, ih, put, Table.cell?_put, List.exists_mem_cons_iff]
      by_cases row : r.lhs.key = n.key
      · by_cases column : la.key = v.key
        · simp [row, column]
        · simp [row, column]
      · simp [row]

/-- The lookaheads for which a rule is entered are those in its directing set. -/
theorem exists_lookahead_iff {first follow : SetMap} {r : Rule} {v : Value}
    : (∃ la ∈ r.lookaheads first follow, la.key = v.key)
      ↔ (r.directingSet first follow).has v = true := by
  rw [Rule.has_directingSet, Rule.lookaheads, SetMap.Leads]
  simp only [List.mem_append, or_and_right, exists_or]
  apply or_congr
  · rw [← ValueSet.has_iff, ValueSet.has_erase]
    simp [Value.key, Rule.word, and_comm]
  · change _ ↔ (first.firstOf r.word).has .epsilon = true ∧ _
    cases (first.firstOf r.word).has .epsilon with
    | true => simp [ValueSet.has_iff]
    | false => simp

/-- The lookaheads of a rule are all entered, whatever their order. -/
theorem cell?_foldl_put_of_perm {first follow : SetMap} {r : Rule} {lookaheads : List Value}
    (order : lookaheads.Perm (r.lookaheads first follow)) (f : Filling) (n v : Value)
    : (lookaheads.foldl (put r) f).table.cell? n v
      = if r.lhs.key = n.key ∧ (r.directingSet first follow).has v = true then some r
        else f.table.cell? n v := by
  have same : (∃ la ∈ lookaheads, la.key = v.key) ↔ (r.directingSet first follow).has v = true := by
    rw [← exists_lookahead_iff]
    simp only [order.mem_iff]
  simp only [cell?_foldl_put, same]

/-- Rules are entered one after another, each of them for its lookaheads in some order. -/
inductive Enters (first follow : SetMap) : List Rule → Filling → Filling → Prop where
  | nil (f : Filling) : Enters first follow [] f f
  | cons {r : Rule} {rules : List Rule} {lookaheads : List Value} {f result : Filling}
    (order : lookaheads.Perm (r.lookaheads first follow))
    (rest : Enters first follow rules (lookaheads.foldl (put r) f) result)
    : Enters first follow (r :: rules) f result

/-- The plain order of lookaheads is one of the orders, by induction on the rules. -/
theorem enters_foldl_putRule (first follow : SetMap) (rules : List Rule) (f : Filling)
    : Enters first follow rules f (rules.foldl (putRule first follow) f) := by
  induction rules generalizing f with
  | nil => exact .nil f
  | cons r rules ih => exact .cons (.refl _) (ih _)

/-- The last rule that a lookahead selects in a row keeps the cell, by induction on the rules
that are entered.
-/
theorem Enters.cell?_eq {first follow : SetMap} {rules : List Rule} {f result : Filling}
    (enters : Enters first follow rules f result) (n v : Value)
    : result.table.cell? n v
      = (rules.reverse.find? fun r =>
          decide (r.lhs.key = n.key) && (r.directingSet first follow).has v).or
          (f.table.cell? n v) := by
  induction enters with
  | nil => rfl
  | @cons r rules lookaheads f result order _ ih =>
      rw [ih, cell?_foldl_put_of_perm order, List.reverse_cons, List.find?_append]
      cases rules.reverse.find? fun r =>
          decide (r.lhs.key = n.key) && (r.directingSet first follow).has v with
      | some found => rfl
      | none =>
          by_cases row : r.lhs.key = n.key
          · by_cases chosen : (r.directingSet first follow).has v = true <;> simp [row, chosen]
          · simp [row]

end Filling

namespace Grammar

theorem cell?_start (g : Grammar) (n v : Value) : (Filling.start g).table.cell? n v = none := by
  rw [Table.cell?, Filling.start]
  cases found : ValueMap.get? (.ofList (g.nontermValues.map fun n => (n, (∅ : Row)))) n with
  | none => rfl
  | some row =>
      rw [ValueMap.get?_ofList] at found
      obtain ⟨entry, hf, rfl⟩ := Option.map_eq_some_iff.mp found
      obtain ⟨_, _, rfl⟩ := List.mem_map.mp
        (List.mem_reverse.mp (List.mem_of_find?_eq_some hf))
      rfl

theorem enters_ofGrammar (g : Grammar) (first follow : SetMap)
    : Filling.Enters first follow g.rules (.start g) (.ofGrammar g first follow) :=
  Filling.enters_foldl_putRule first follow g.rules (.start g)

/-- A cell holds the last of the rules of its row that have the lookahead in their directing sets.
-/
theorem cell?_table (g : Grammar) (first follow : SetMap) (n v : Value)
    : (g.table first follow).cell? n v
      = g.rules.reverse.find? fun r =>
          decide (r.lhs.key = n.key) && (r.directingSet first follow).has v := by
  rw [table, (enters_ofGrammar g first follow).cell?_eq, cell?_start, Option.or_none]

/-- A rule in a cell is a rule of the grammar for the row's nonterminal, selected by the
lookahead.
-/
theorem rule_of_cell {g : Grammar} {first follow : SetMap} {n v : Value} {r : Rule}
    (cell : (g.table first follow).cell? n v = some r)
    : r ∈ g.rules ∧ r.lhs.key = n.key ∧ (r.directingSet first follow).has v = true := by
  rw [cell?_table] at cell
  have selected := List.find?_some cell
  rw [Bool.and_eq_true, decide_eq_true_eq] at selected
  exact ⟨List.mem_reverse.mp (List.mem_of_find?_eq_some cell), selected⟩

theorem exists_cell {g : Grammar} {first follow : SetMap} {v : Value} {r : Rule}
    (member : r ∈ g.rules) (selected : (r.directingSet first follow).has v = true)
    : ∃ s, (g.table first follow).cell? r.lhs v = some s := by
  rw [cell?_table]
  apply Option.isSome_iff_exists.mp
  rw [List.find?_isSome]
  exact ⟨r, List.mem_reverse.mpr member, by simp [selected]⟩

end Grammar

namespace Grammar

/-- If there is a conflict, some lookahead is in the directing sets of two rules of a nonterminal,
which are different ones if no rule is repeated.
-/
theorem exists_common_of_conflict {g : Grammar} {first follow : SetMap}
    (distinct : g.rules.Nodup) (conflicting : g.hasNoConflict first follow = false)
    : ∃ r ∈ g.rules,
        ∃ s ∈ g.rules,
          r ≠ s
          ∧ r.head.key = s.head.key
          ∧ ∃ v,
              (r.directingSet first follow).has v = true
              ∧ (s.directingSet first follow).has v = true := by
  have clashing := mt hasNoConflict_iff_pairwise.mpr (Bool.not_eq_true _ ▸ conflicting)
  simp only [List.pairwise_iff_get, not_forall, Classical.not_not] at clashing
  obtain ⟨i, j, less, same, shared⟩ := clashing
  have different : g.rules.get i ≠ g.rules.get j :=
    fun equal => less.ne (distinct.injective_get equal)
  exact ⟨_, g.rules.get_mem i, _, g.rules.get_mem j, different,
    (lhs_eq_iff (g.rules.get_mem i)).mp same, shared⟩

/-- Without conflicts, no lookahead is in the directing sets of two rules of a nonterminal. -/
theorem eq_of_directingSets {g : Grammar} {first follow : SetMap}
    (none : g.hasNoConflict first follow = true) {r s : Rule} (hr : r ∈ g.rules) (hs : s ∈ g.rules)
    (heads : r.head.key = s.head.key) {v : Value} (left : (r.directingSet first follow).has v = true)
    (right : (s.directingSet first follow).has v = true)
    : r = s := by
  by_contra different
  have symmetric : Std.Symm fun r s : Rule => ¬ r.Clashes first follow s :=
    ⟨fun _ _ => mt Rule.Clashes.symm⟩
  have apart := (hasNoConflict_iff_pairwise.mp none).forall hr hs different
  exact apart ⟨(lhs_eq_iff hr).mpr heads, v, left, right⟩

/-- Without conflicts, no lookahead selects two rules of a nonterminal. -/
theorem eq_of_selects {g : Grammar} (ll1 : g.isLL1 = true) {r s : Rule} (hr : r ∈ g.rules)
    (hs : s ∈ g.rules) (heads : r.head.key = s.head.key) {v : Value} (left : g.Selects r v)
    (right : g.Selects s v)
    : r = s :=
  eq_of_directingSets ll1 hr hs heads (selects_iff.mp left) (selects_iff.mp right)

def ownTable (g : Grammar) : Table :=
  g.table g.first (g.follow g.first g.nullable)

/-- Without conflicts, a rule is in the cells of all lookaheads that select it. -/
theorem cell_of_selects {g : Grammar} (ll1 : g.isLL1 = true) {r : Rule} (member : r ∈ g.rules)
    {v : Value} (selected : g.Selects r v)
    : g.ownTable.cell? r.lhs v = some r := by
  obtain ⟨s, cell⟩ := exists_cell member (selects_iff.mp selected)
  obtain ⟨hs, heads, chosen⟩ := rule_of_cell cell
  have same : s.head.key = r.head.key := by simpa [Rule.lhs, Value.key] using heads
  have only := eq_of_selects ll1 member hs same.symm selected (selects_iff.mpr chosen)
  subst only
  exact cell

/-- What a cell of the table holds is a rule of its row that the lookahead selects. -/
theorem rule_of_ownTable {g : Grammar} {n v : Value} {r : Rule}
    (cell : g.ownTable.cell? n v = some r)
    : r ∈ g.rules ∧ r.lhs.key = n.key ∧ g.Selects r v := by
  obtain ⟨member, row, selected⟩ := rule_of_cell cell
  exact ⟨member, row, selects_iff.mpr selected⟩

end Grammar

end PredictiveParsing
