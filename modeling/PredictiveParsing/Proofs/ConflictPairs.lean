import Mathlib.Data.List.FinRange
import Mathlib.Data.List.Induction
import Mathlib.Data.List.Pairwise
import PredictiveParsing.Proofs.VanishingSymbols
import PredictiveParsing.Table.Conflict

/-! Conflicts as pairs of positions in the list of rules. Every pair of clashing rules is listed
once, ordered by the first rule of their nonterminal and then by their own positions.
-/

namespace PredictiveParsing

-----------------------------------------------------------------------------------------
-- Pairs of a list
-----------------------------------------------------------------------------------------

section Pairs

variable {α β : Type}

/-- Two different elements make a pair in one order or in the other, by induction on the list. -/
theorem mem_pairs {as : List α} {a b : α} (ha : a ∈ as) (hb : b ∈ as) (different : a ≠ b)
    : (a, b) ∈ pairs as ∨ (b, a) ∈ pairs as := by
  induction as with
  | nil => exact False.elim (List.not_mem_nil ha)
  | cons c as ih =>
      simp only [pairs, List.mem_append, List.mem_map]
      rcases List.mem_cons.mp ha with rfl | la
      · rcases List.mem_cons.mp hb with rfl | lb
        · exact absurd rfl different
        · exact Or.inl (Or.inl ⟨b, lb, rfl⟩)
      · rcases List.mem_cons.mp hb with rfl | lb
        · exact Or.inr (Or.inl ⟨a, la, rfl⟩)
        · exact (ih la lb).imp Or.inr Or.inr

/-- The elements of a pair stand in the list in their order, by induction on the list. -/
theorem sublist_of_mem_pairs {as : List α} {a b : α} (pair : (a, b) ∈ pairs as)
    : [a, b].Sublist as := by
  induction as with
  | nil => exact False.elim (List.not_mem_nil pair)
  | cons c as ih =>
      rw [pairs, List.mem_append, List.mem_map] at pair
      rcases pair with ⟨d, later, here⟩ | rest
      · cases here
        exact (List.singleton_sublist.mpr later).cons_cons a
      · exact (ih rest).cons c

/-- Two elements make a pair if one stands before the other, by induction on the list. -/
theorem mem_pairs_of_sublist {as : List α} {a b : α} (ordered : [a, b].Sublist as)
    : (a, b) ∈ pairs as := by
  induction as with
  | nil => cases ordered
  | cons c as ih =>
      rw [pairs, List.mem_append, List.mem_map]
      cases ordered with
      | cons _ later => exact Or.inr (ih later)
      | cons_cons _ last => exact Or.inl ⟨b, List.singleton_sublist.mp last, rfl⟩

theorem pairs_map (f : α → β) (as : List α)
    : pairs (as.map f) = (pairs as).map (Prod.map f f) := by
  induction as with
  | nil => rfl
  | cons a as ih => simp [pairs, ih]

section Sorted

variable [LinearOrder α] {as : List α} (sorted : as.Pairwise (· < ·))

include sorted

/-- The pairs of an ascending list are those of a smaller and a larger element. -/
theorem mem_pairs_iff {a b : α} : (a, b) ∈ pairs as ↔ a < b ∧ a ∈ as ∧ b ∈ as := by
  constructor
  · intro pair
    have ordered := sublist_of_mem_pairs pair
    refine ⟨?_, ordered.subset (by simp), ordered.subset (by simp)⟩
    simpa using sorted.sublist ordered
  · rintro ⟨less, ha, hb⟩
    rcases mem_pairs ha hb less.ne with pair | swapped
    · exact pair
    · have greater := sorted.sublist (sublist_of_mem_pairs swapped)
      simp only [List.pairwise_cons, List.mem_singleton, forall_eq] at greater
      exact absurd greater.1 less.asymm

/-- The pairs of an ascending list ascend by their first elements and then by the second ones, by
induction on the list.
-/
theorem pairwise_pairs
    : (pairs as).Pairwise fun p q => p.1 < q.1 ∨ p.1 = q.1 ∧ p.2 < q.2 := by
  induction as with
  | nil => exact .nil
  | cons a as ih =>
      obtain ⟨least, sorted⟩ := List.pairwise_cons.mp sorted
      rw [pairs, List.pairwise_append, List.pairwise_map]
      refine ⟨sorted.imp fun less => Or.inr ⟨rfl, less⟩, ih sorted, ?_⟩
      intro p first q later
      obtain ⟨b, _, rfl⟩ := List.mem_map.mp first
      exact Or.inl (least q.1 ((mem_pairs_iff sorted).mp later).2.1)

end Sorted

/-- Elements for which a function has its value are kept and mapped to it. -/
theorem filterMap_eq_map_filter {f : α → Option β} {value : α → β}
    (found : ∀ a b, f a = some b → b = value a) (as : List α)
    : as.filterMap f = (as.filter fun a => (f a).isSome).map value := by
  rw [← List.filterMap_eq_map, List.filterMap_filter]
  refine List.filterMap_congr fun a _ => ?_
  cases equal : f a with
  | none => rfl
  | some b => simp [found a b equal]

end Pairs

-----------------------------------------------------------------------------------------
-- Clashing rules
-----------------------------------------------------------------------------------------

/-- An intersection is not empty exactly if both sets have some value in common. -/
theorem ValueSet.inter_items_ne_nil_iff {s t : ValueSet}
    : (s.inter t).items ≠ [] ↔ ∃ v, s.has v = true ∧ t.has v = true := by
  constructor
  · intro nonempty
    obtain ⟨v, common⟩ := List.exists_mem_of_ne_nil _ nonempty
    have both := has_of_mem common
    rw [has_inter, Bool.and_eq_true] at both
    exact ⟨v, both⟩
  · rintro ⟨v, left, right⟩ empty
    have both : (s.inter t).has v = true := by rw [has_inter, left, right]; rfl
    rw [has, empty] at both
    cases both

/-- Some lookahead is in the directing sets of two rules of one nonterminal. -/
def Rule.Clashes (first follow : SetMap) (r s : Rule) : Prop :=
  r.lhs = s.lhs
  ∧ ∃ v, (r.directingSet first follow).has v = true ∧ (s.directingSet first follow).has v = true

theorem Rule.Clashes.symm {first follow : SetMap} {r s : Rule} (clash : r.Clashes first follow s)
    : s.Clashes first follow r := by
  obtain ⟨same, v, left, right⟩ := clash
  exact ⟨same.symm, v, right, left⟩

def Rule.conflictWith (first follow : SetMap) (r s : Rule) : Conflict where
  nonterm := r.lhs
  first := r
  second := s
  lookaheads := (r.directingSet first follow).inter (s.directingSet first follow)

namespace Grammar

variable {g : Grammar} {first follow : SetMap}

/-- Two rules have a conflict exactly if some lookahead is in both directing sets. -/
theorem conflict?_isSome {pair : Rule × Rule}
    : (conflict? first follow pair).isSome = true
      ↔ ∃ v,
          (pair.1.directingSet first follow).has v = true
          ∧ (pair.2.directingSet first follow).has v = true := by
  rw [← ValueSet.inter_items_ne_nil_iff, conflict?]
  split <;> simp_all

theorem eq_conflictWith_of_conflict? {pair : Rule × Rule} {c : Conflict}
    (found : conflict? first follow pair = some c)
    : c = pair.1.conflictWith first follow pair.2 := by
  rw [conflict?] at found
  split at found
  · cases found
  · exact (Option.some.inj found).symm

def positionsOf (g : Grammar) (head : Value) : List (Fin g.rules.length) :=
  (List.finRange g.rules.length).filter fun i => decide ((g.rules.get i).head.key = head.key)

theorem pairwise_positionsOf (g : Grammar) (head : Value)
    : (g.positionsOf head).Pairwise (· < ·) :=
  (List.pairwise_lt_finRange _).filter _

theorem mem_positionsOf {head : Value} {i : Fin g.rules.length}
    : i ∈ g.positionsOf head ↔ (g.rules.get i).head.key = head.key := by
  simp [positionsOf]

/-- The rules at the positions of a nonterminal are its rules in order. -/
theorem map_get_positionsOf (g : Grammar) (head : Value)
    : (g.positionsOf head).map g.rules.get
      = g.rules.filter fun r => decide (r.head.key = head.key) := by
  conv_rhs => rw [← List.map_get_finRange g.rules, List.filter_map]
  rfl

/-- The pairs of positions of clashing rules, in the order in which the conflicts are listed. -/
def conflictPlaces (g : Grammar) (first follow : SetMap)
    : List (Fin g.rules.length × Fin g.rules.length) :=
  g.heads.flatMap fun head =>
    (pairs (g.positionsOf head)).filter fun place =>
      (conflict? first follow (g.rules.get place.1, g.rules.get place.2)).isSome

/-- The conflicts are those of the pairs of positions, in the same order and one for each pair. -/
theorem conflicts_eq_map (g : Grammar) (first follow : SetMap)
    : g.conflicts first follow
      = (g.conflictPlaces first follow).map fun place =>
          (g.rules.get place.1).conflictWith first follow (g.rules.get place.2) := by
  rw [conflicts, conflictPlaces, List.map_flatMap]
  refine List.flatMap_congr fun head _ => ?_
  rw [conflictsOf, ← map_get_positionsOf, pairs_map, List.filterMap_map]
  exact filterMap_eq_map_filter (fun _ _ found => eq_conflictWith_of_conflict? found) _

theorem exists_head {r : Rule} (member : r ∈ g.rules)
    : ∃ head ∈ g.heads, head.key = r.head.key :=
  ValueSet.has_iff.mp (ValueSet.has_ofList_of_mem (List.mem_map_of_mem member))

/-- Two rules of a grammar are of one nonterminal exactly if its names count as one, since the names
are texts.
-/
theorem lhs_eq_iff {r s : Rule} (member : r ∈ g.rules)
    : r.lhs = s.lhs ↔ r.head.key = s.head.key := by
  refine ⟨fun same => ?_, fun same => ?_⟩
  · rw [Rule.lhs, Rule.lhs, Value.nonterm.injEq] at same
    rw [same]
  · rw [Rule.lhs, Rule.lhs, head_eq_of_key member same]

/-- A pair of positions is listed exactly if the first one comes earlier and the rules there clash.
-/
theorem mem_conflictPlaces {i j : Fin g.rules.length}
    : (i, j) ∈ g.conflictPlaces first follow
      ↔ i < j ∧ (g.rules.get i).Clashes first follow (g.rules.get j) := by
  have member := g.rules.get_mem i
  simp only [conflictPlaces, List.mem_flatMap, List.mem_filter, mem_positionsOf,
    mem_pairs_iff (pairwise_positionsOf g _), conflict?_isSome, Rule.Clashes, lhs_eq_iff member]
  constructor
  · rintro ⟨head, _, ⟨less, left, right⟩, shared⟩
    exact ⟨less, left.trans right.symm, shared⟩
  · rintro ⟨less, same, shared⟩
    obtain ⟨head, listed, equal⟩ := exists_head member
    exact ⟨head, listed, ⟨less, equal.symm, same.symm.trans equal.symm⟩, shared⟩

/-- A conflict is made by two clashing rules, one behind the other. -/
theorem mem_conflicts {c : Conflict}
    : c ∈ g.conflicts first follow
      ↔ ∃ r s,
          [r, s].Sublist g.rules ∧ r.Clashes first follow s ∧ c = r.conflictWith first follow s := by
  have sorted := List.pairwise_lt_finRange g.rules.length
  rw [conflicts_eq_map, List.mem_map]
  constructor
  · rintro ⟨⟨i, j⟩, listed, rfl⟩
    obtain ⟨less, clash⟩ := mem_conflictPlaces.mp listed
    have pair := (mem_pairs_iff sorted).mpr ⟨less, List.mem_finRange i, List.mem_finRange j⟩
    have positions := List.mem_map_of_mem (f := Prod.map g.rules.get g.rules.get) pair
    rw [← pairs_map, List.map_get_finRange] at positions
    exact ⟨_, _, sublist_of_mem_pairs positions, clash, rfl⟩
  · rintro ⟨r, s, ordered, clash, rfl⟩
    have pair := mem_pairs_of_sublist ordered
    rw [← List.map_get_finRange g.rules, pairs_map, List.mem_map] at pair
    obtain ⟨⟨i, j⟩, listed, same⟩ := pair
    cases same
    exact ⟨(i, j), mem_conflictPlaces.mpr ⟨((mem_pairs_iff sorted).mp listed).1, clash⟩, rfl⟩

/-- Rules clash nowhere exactly if there is no conflict. -/
theorem hasNoConflict_iff_pairwise
    : g.hasNoConflict first follow = true
      ↔ g.rules.Pairwise fun r s => ¬ r.Clashes first follow s := by
  rw [hasNoConflict, List.isEmpty_iff, conflicts_eq_map, List.map_eq_nil_iff,
    List.pairwise_iff_get, List.eq_nil_iff_forall_not_mem, Prod.forall]
  simp only [mem_conflictPlaces, not_and]

end Grammar

-----------------------------------------------------------------------------------------
-- The order of the conflicts
-----------------------------------------------------------------------------------------

/-- The first place in a list at which a value counts as the given one. -/
def Value.place (v : Value) (values : List Value) : Nat :=
  values.findIdx fun w => decide (w.key = v.key)

namespace ValueSet

theorem place_lt_of_has {values : List Value} {v : Value} (found : (ofList values).has v = true)
    : v.place values < values.length := by
  rw [has_ofList, List.any_eq_true] at found
  exact List.findIdx_lt_length.mpr found

theorem place_append_of_has {values : List Value} {v : Value}
    (found : (ofList values).has v = true) (more : List Value)
    : v.place (values ++ more) = v.place values := by
  rw [Value.place, List.findIdx_append]
  exact if_pos (place_lt_of_has found)

theorem length_le_place {values : List Value} {v : Value} (absent : ¬ (ofList values).has v = true)
    (more : List Value)
    : values.length ≤ v.place (values ++ more) := by
  rw [has_ofList, List.any_eq_true, ← List.findIdx_lt_length] at absent
  rw [Value.place, List.findIdx_append, if_neg absent]
  exact Nat.le_add_left _ _

theorem ofList_concat (values : List Value) (a : Value)
    : ofList (values ++ [a]) = (ofList values).insert a := by
  rw [ofList, List.foldl_append]
  rfl

/-- The values of a set stand in the order of their first places in the list that the set is made
of, by induction on the list from its end.
-/
theorem pairwise_ofList (values : List Value)
    : (ofList values).items.Pairwise fun v w => v.place values < w.place values := by
  induction values using List.reverseRecOn with
  | nil => exact .nil
  | append_singleton values a ih =>
      have old : (ofList values).items.Pairwise fun v w =>
          v.place (values ++ [a]) < w.place (values ++ [a]) := by
        refine ih.imp_of_mem fun hv hw less => ?_
        rw [place_append_of_has (has_of_mem hv), place_append_of_has (has_of_mem hw)]
        exact less
      rw [ofList_concat, insert]
      split
      · exact old
      · rename_i new
        refine List.pairwise_append.mpr ⟨old, List.pairwise_singleton _ _, ?_⟩
        intro v hv w last
        rw [List.mem_singleton.mp last]
        rw [place_append_of_has (has_of_mem hv)]
        exact (place_lt_of_has (has_of_mem hv)).trans_le (length_le_place new [a])

end ValueSet

namespace Grammar

def firstPosition (g : Grammar) (nonterm : Value) : Nat :=
  g.rules.findIdx fun r => decide (r.lhs = nonterm)

/-- A pair of positions comes before another one if its nonterminal has the earlier first rule,
and for the same nonterminal if its first rule is the earlier one, or else its second rule is.
-/
def Precedes (g : Grammar) (p q : Fin g.rules.length × Fin g.rules.length) : Prop :=
  let group := g.firstPosition (g.rules.get p.1).lhs
  let other := g.firstPosition (g.rules.get q.1).lhs
  group < other ∨ group = other ∧ (p.1 < q.1 ∨ p.1 = q.1 ∧ p.2 < q.2)

/-- The first rule of a nonterminal stands where its name has its place among the names of all
rules.
-/
theorem firstPosition_eq_place (g : Grammar) {r : Rule} (member : r ∈ g.rules) {head : Value}
    (same : r.head.key = head.key)
    : g.firstPosition r.lhs = head.place (g.rules.map Rule.head) := by
  obtain ⟨⟨n, _, named⟩, _⟩ := g.rules_declared r member
  rw [named] at same
  have agree : (fun s : Rule => decide (s.lhs = r.lhs))
      = (fun v : Value => decide (v.key = head.key)) ∘ Rule.head := by
    funext s
    simp [Rule.lhs, named, ← same, Value.key, Value.key_eq_text]
  rw [firstPosition, Value.place, List.findIdx_map, agree]

/-- The pairs are grouped by nonterminals in the order of these, and sorted within each group. -/
theorem pairwise_conflictPlaces (g : Grammar) (first follow : SetMap)
    : (g.conflictPlaces first follow).Pairwise g.Precedes := by
  have position {head : Value} {p : Fin g.rules.length × Fin g.rules.length}
      (listed : p ∈ (pairs (g.positionsOf head)).filter fun place =>
        (conflict? first follow (g.rules.get place.1, g.rules.get place.2)).isSome)
      : g.firstPosition (g.rules.get p.1).lhs = head.place (g.rules.map Rule.head) := by
    have pair := (mem_pairs_iff (g.pairwise_positionsOf head)).mp (List.mem_filter.mp listed).1
    exact g.firstPosition_eq_place (g.rules.get_mem _) (mem_positionsOf.mp pair.2.1)
  rw [conflictPlaces, List.pairwise_flatMap]
  constructor
  · intro head _
    refine ((pairwise_pairs (g.pairwise_positionsOf head)).filter _).imp_of_mem ?_
    intro p q hp hq less
    exact Or.inr ⟨(position hp).trans (position hq).symm, less⟩
  · refine (ValueSet.pairwise_ofList _).imp fun less p hp q hq => Or.inl ?_
    rw [position hp, position hq]
    exact less

end Grammar

end PredictiveParsing
