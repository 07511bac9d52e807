import Mathlib.Algebra.GroupWithZero.Nat
import Mathlib.Algebra.Order.BigOperators.Group.List
import Mathlib.Algebra.Order.Group.Nat
import Mathlib.Data.List.Nodup
import Mathlib.Data.List.Perm.Subperm
import Mathlib.Order.Basic
import PredictiveParsing.ValueMap

/-! Sets of values and maps of sets, ordered by inclusion. A set that grows gains size, and
so does a map that grows while its keys stay.
-/

namespace PredictiveParsing

namespace Value

@[simp] theorem key_eq_epsilon {a : Value} : a.key = .epsilon ↔ a = .epsilon := by
  cases a <;> simp [key]

@[simp] theorem key_eq_endMark {a : Value} : a.key = .endMark ↔ a = .endMark := by
  cases a <;> simp [key]

@[simp] theorem key_eq_nonterm_text {a : Value} {n : Text}
    : a.key = .nonterm (.text n) ↔ a = .nonterm (.text n) := by
  cases a <;> simp [key, key_eq_text]

@[simp] theorem key_eq_term_text {a : Value} {n : Text}
    : a.key = .term (.text n) ↔ a = .term (.text n) := by
  cases a <;> simp [key, key_eq_text]

end Value

namespace ValueSet

instance : Preorder ValueSet where
  le s t := ∀ v, s.has v = true → t.has v = true
  le_refl _ _ member := member
  le_trans _ _ _ first second v member := second v (first v member)

theorem le_insert (s : ValueSet) (v : Value) : s ≤ s.insert v := by
  intro w member
  simp [member]

theorem le_union_left (s t : ValueSet) : s ≤ s.union t := by
  intro v member
  simp [member]

theorem le_union_right (s t : ValueSet) : t ≤ s.union t := by
  intro v member
  simp [member]

theorem union_le {s t u : ValueSet} (left : s ≤ u) (right : t ≤ u) : s.union t ≤ u := by
  intro v member
  rw [has_union, Bool.or_eq_true] at member
  exact member.elim (left v) (right v)

/-- Two sets are the same exactly if each is below the other. -/
theorem same_iff_le {s t : ValueSet} : s.same t = true ↔ s ≤ t ∧ t ≤ s := by
  rw [same, Bool.and_eq_true, subset_iff, subset_iff]
  rfl

/-- The representatives of a smaller set are among those of the larger one. -/
theorem keys_subset {s t : ValueSet} (below : s ≤ t)
    : s.items.map Value.key ⊆ t.items.map Value.key := by
  intro k member
  obtain ⟨v, hv, rfl⟩ := List.mem_map.mp member
  obtain ⟨w, hw, same⟩ := has_iff.mp (below v (has_of_mem hv))
  exact List.mem_map.mpr ⟨w, hw, same⟩

/-- A smaller set has no more elements, since no two of them count as one. -/
theorem size_le_of_le {s t : ValueSet} (below : s ≤ t) : s.size ≤ t.size := by
  simpa [size] using s.distinct.length_le_of_subset (keys_subset below)

/-- A set that is included in another one of no greater size has all of its values, since
distinct representatives leave no room for others.
-/
theorem le_of_size_le {s t : ValueSet} (below : s ≤ t) (small : t.size ≤ s.size) : t ≤ s := by
  have equal : (s.items.map Value.key).Perm (t.items.map Value.key) :=
    (s.distinct.subperm (keys_subset below)).perm_of_length_le (by simpa [size] using small)
  intro v member
  obtain ⟨w, hw, same⟩ := has_iff.mp member
  have found : w.key ∈ s.items.map Value.key :=
    equal.mem_iff.mpr (List.mem_map.mpr ⟨w, hw, rfl⟩)
  obtain ⟨u, hu, hk⟩ := List.mem_map.mp found
  exact has_iff.mpr ⟨u, hu, hk.trans same⟩

/-- A set that grows has more elements than before. -/
theorem size_lt_of_changed {s t : ValueSet} (below : s ≤ t) (changed : t.same s = false)
    : s.size < t.size := by
  apply Nat.lt_of_not_le
  intro small
  have equal := same_iff_le.mpr ⟨le_of_size_le below small, below⟩
  simp [changed] at equal

/-- A set of values of a list is no larger than the list. -/
theorem size_le_length {s : ValueSet} {values : List Value} (below : s ≤ ofList values)
    : s.size ≤ values.length := by
  have among : s.items.map Value.key ⊆ values.map Value.key := by
    intro k member
    obtain ⟨v, hv, rfl⟩ := List.mem_map.mp member
    have found := below v (has_of_mem hv)
    simpa using found
  simpa [size] using s.distinct.length_le_of_subset among

theorem has_ofList_of_mem {values : List Value} {v : Value} (member : v ∈ values)
    : (ofList values).has v = true := by
  rw [has_ofList, List.any_eq_true]
  exact ⟨v, member, by simp⟩

/-- The elements of the set of a list are values of the list, by induction on it. -/
theorem items_ofList_subset (values : List Value) : (ofList values).items ⊆ values := by
  have grown (values : List Value) (s : ValueSet)
      : (values.foldl insert s).items ⊆ s.items ++ values := by
    induction values generalizing s with
    | nil => simp
    | cons v values ih =>
        refine List.Subset.trans (ih (s.insert v)) ?_
        unfold insert
        split <;> simp
  exact grown values ∅

theorem ofList_mono {values more : List Value} (among : values ⊆ more)
    : ofList values ≤ ofList more := by
  intro v found
  rw [has_ofList, List.any_eq_true] at found ⊢
  obtain ⟨w, member, same⟩ := found
  exact ⟨w, among member, same⟩

end ValueSet

-----------------------------------------------------------------------------------------
-- Entries of a map are found by their keys
-----------------------------------------------------------------------------------------

namespace ValueMap

variable {β : Type}

/-- There is an entry for a key exactly if some key counts as it. -/
theorem hasKey_iff_keys {m : ValueMap β} {k : Value}
    : m.hasKey k = true ↔ ∃ l ∈ m.keys, l.key = k.key := by
  rw [hasKey_iff, keys]
  simp

theorem hasKey_iff_mem {m : ValueMap β} {k : Value}
    : m.hasKey k = true ↔ k.key ∈ m.keys.map Value.key := by
  rw [hasKey_iff_keys, List.mem_map]

theorem hasKey_eq_of_keys {m n : ValueMap β} (keys : m.keys = n.keys) (k : Value)
    : m.hasKey k = n.hasKey k := by
  rw [Bool.eq_iff_iff, hasKey_iff_keys, hasKey_iff_keys, keys]

theorem nodup_keys (m : ValueMap β) : (m.keys.map Value.key).Nodup := by
  rw [keys, List.map_map]
  exact m.distinct

theorem hasKey_of_mem {m : ValueMap β} {entry : Value × β} (member : entry ∈ m.entries)
    : m.hasKey entry.1 = true :=
  hasKey_iff.mpr ⟨entry, member, rfl⟩

/-- The keys of a map are among those of another one that has an entry for each of them. -/
theorem keys_subset {m n : ValueMap β} (present : ∀ entry ∈ m.entries, n.hasKey entry.1 = true)
    : m.keys.map Value.key ⊆ n.keys.map Value.key := by
  intro l member
  obtain ⟨_, listed, rfl⟩ := List.mem_map.mp member
  obtain ⟨entry, he, rfl⟩ := List.mem_map.mp listed
  exact hasKey_iff_mem.mp (present entry he)

theorem size_le_of_keys {m n : ValueMap β}
    (present : ∀ entry ∈ m.entries, n.hasKey entry.1 = true)
    : m.size ≤ n.size := by
  simpa [keys, size] using m.nodup_keys.length_le_of_subset (keys_subset present)

theorem size_eq_of_keys {m n : ValueMap β} (keys : m.keys = n.keys) : m.size = n.size := by
  simpa [ValueMap.keys, size] using congrArg List.length keys

theorem keys_insert {m : ValueMap β} {k : Value} (present : m.hasKey k = true) (b : β)
    : (m.insert k b).keys = m.keys := by
  simp only [insert, present, dite_true, keys, List.map_map]
  exact List.map_congr_left fun entry _ => overwrite_fst k b entry

theorem entries_insert_new {m : ValueMap β} {k : Value} (absent : m.hasKey k = false) (b : β)
    : (m.insert k b).entries = m.entries ++ [(k, b)] := by
  simp [insert, absent]

theorem keys_insert_new {m : ValueMap β} {k : Value} (absent : m.hasKey k = false) (b : β)
    : (m.insert k b).keys = m.keys ++ [k] := by
  simp [keys, entries_insert_new absent]

/-- Entries with new keys come behind those of a map, by induction on the list. -/
theorem entries_foldl_insert (entries : List (Value × β)) (m : ValueMap β)
    (distinct : ((m.keys ++ entries.map Prod.fst).map Value.key).Nodup)
    : (entries.foldl (fun m entry => m.insert entry.1 entry.2) m).entries
      = m.entries ++ entries := by
  induction entries generalizing m with
  | nil => simp
  | cons entry entries ih =>
      have absent : m.hasKey entry.1 = false := by
        rw [← Bool.not_eq_true, hasKey_iff_keys]
        rintro ⟨l, hl, same⟩
        rw [List.map_append, List.nodup_append] at distinct
        exact distinct.2.2 _ (List.mem_map_of_mem hl) _ (by simp) same
      rw [List.map_cons, List.append_cons, ← keys_insert_new absent entry.2] at distinct
      rw [List.foldl_cons, ih _ distinct, entries_insert_new absent, List.append_assoc]
      rfl

/-- The map of a list whose keys are different has just these entries. -/
theorem entries_ofList {entries : List (Value × β)}
    (distinct : ((entries.map Prod.fst).map Value.key).Nodup)
    : (ofList entries).entries = entries :=
  entries_foldl_insert entries ∅ distinct

theorem keys_ofList {entries : List (Value × β)}
    (distinct : ((entries.map Prod.fst).map Value.key).Nodup)
    : (ofList entries).keys = entries.map Prod.fst := by
  rw [keys, entries_ofList distinct]

/-- An entry is found under its own key, since no other key counts as that one. -/
theorem get?_of_mem {m : ValueMap β} {entry : Value × β} (member : entry ∈ m.entries)
    : m.get? entry.1 = some entry.2 := by
  unfold get?
  cases hf : m.entries.find? fun other => decide (other.1.key = entry.1.key) with
  | none =>
      have := List.find?_eq_none.mp hf entry member
      simp at this
  | some found =>
      have equal : found.1.key = entry.1.key := by simpa using List.find?_some hf
      have : found = entry :=
        List.inj_on_of_nodup_map m.distinct (List.mem_of_find?_eq_some hf) member equal
      rw [this]
      rfl

/-- What is found under a key is the element of an entry. -/
theorem exists_mem_of_get? {m : ValueMap β} {k : Value} {b : β} (found : m.get? k = some b)
    : ∃ entry ∈ m.entries, entry.1.key = k.key ∧ entry.2 = b := by
  obtain ⟨entry, hf, rfl⟩ := Option.map_eq_some_iff.mp found
  exact ⟨entry, List.mem_of_find?_eq_some hf, by simpa using List.find?_some hf, rfl⟩

theorem hasKey_iff_get? {m : ValueMap β} {k : Value}
    : m.hasKey k = true ↔ m.get? k ≠ none := by
  rw [ne_eq, get?_eq_none_iff, Bool.not_eq_false]

/-- Maps with related elements have the same keys, too: those of the first map are among those of
the second one, which has no room for others.
-/
theorem hasKey_eq_of_same {related : β → β → Bool} {m n : ValueMap β}
    (same : m.same related n = true) (k : Value)
    : m.hasKey k = n.hasKey k := by
  rw [ValueMap.same, Bool.and_eq_true, beq_iff_eq, List.all_eq_true] at same
  obtain ⟨sizes, elements⟩ := same
  have among : m.keys.map Value.key ⊆ n.keys.map Value.key := keys_subset fun entry member => by
    rw [hasKey_iff_get?]
    intro absent
    simpa [absent] using elements entry member
  have equal : (m.keys.map Value.key).Perm (n.keys.map Value.key) :=
    (m.nodup_keys.subperm among).perm_of_length_le (by simpa [keys, size] using sizes.ge)
  rw [Bool.eq_iff_iff, hasKey_iff_mem, hasKey_iff_mem, equal.mem_iff]

/-- Maps are the same exactly if they have the same keys and related elements for each of them. -/
theorem same_iff {related : β → β → Bool} {m n : ValueMap β}
    : m.same related n = true
      ↔ (∀ k, m.hasKey k = n.hasKey k)
        ∧ ∀ k b c, m.get? k = some b → n.get? k = some c → related b c = true := by
  constructor
  · intro same
    refine ⟨hasKey_eq_of_same same, fun k b c left right => ?_⟩
    rw [ValueMap.same, Bool.and_eq_true, List.all_eq_true] at same
    obtain ⟨entry, member, equal, rfl⟩ := exists_mem_of_get? left
    simpa [n.get?_congr equal, right] using same.2 entry member
  · rintro ⟨keys, elements⟩
    have sizes : m.size = n.size := Nat.le_antisymm
      (size_le_of_keys fun entry member => keys entry.1 ▸ hasKey_of_mem member)
      (size_le_of_keys fun entry member => keys entry.1 ▸ hasKey_of_mem member)
    rw [ValueMap.same, Bool.and_eq_true, beq_iff_eq, List.all_eq_true]
    refine ⟨sizes, fun entry member => ?_⟩
    have present : n.get? entry.1 ≠ none := by
      rw [← hasKey_iff_get?, ← keys]
      exact hasKey_of_mem member
    obtain ⟨c, found⟩ := Option.ne_none_iff_exists'.mp present
    simpa only [found] using elements entry.1 entry.2 c (get?_of_mem member) found

theorem hasKey_eq_of_get? {m n : ValueMap β} {k : Value} (equal : m.get? k = n.get? k)
    : m.hasKey k = n.hasKey k := by
  rw [Bool.eq_iff_iff, hasKey_iff_get?, hasKey_iff_get?, equal]

/-- What a list of entries looks up is the element of the last one with that key, by
induction on the list.
-/
theorem get?_foldl_insert (entries : List (Value × β)) (m : ValueMap β) (k : Value)
    : (entries.foldl (fun m entry => m.insert entry.1 entry.2) m).get? k
      = ((entries.reverse.find? fun entry => decide (entry.1.key = k.key)).map Prod.snd).or
        (m.get? k) := by
  induction entries generalizing m with
  | nil => rfl
  | cons entry entries ih =>
      rw [List.foldl_cons, ih, get?_insert, List.reverse_cons, List.find?_append]
      cases entries.reverse.find? fun entry => decide (entry.1.key = k.key) with
      | some found => rfl
      | none => by_cases equal : entry.1.key = k.key <;> simp [equal]

/-- In the map of a list, the last entry for a key is found. -/
theorem get?_ofList (entries : List (Value × β)) (k : Value)
    : (ofList entries).get? k
      = (entries.reverse.find? fun entry => decide (entry.1.key = k.key)).map Prod.snd := by
  rw [ofList, get?_foldl_insert, get?_empty, Option.or_none]

end ValueMap

-----------------------------------------------------------------------------------------
-- Maps are ordered by their sets, and a changed map has gained a value
-----------------------------------------------------------------------------------------

namespace SetMap

instance : Preorder SetMap where
  le m n := ∀ k, setOf m k ≤ setOf n k
  le_refl m k := le_refl (setOf m k)
  le_trans _ _ _ first second k := (first k).trans (second k)

theorem le_addAll (m : SetMap) (k : Value) (s : ValueSet) : m ≤ addAll m k s := by
  intro l
  rw [setOf_addAll]
  split
  · rename_i equal
    rw [setOf_congr m equal.symm]
    exact ValueSet.le_union_left _ _
  · exact le_refl _

theorem le_setOf_addAll (m : SetMap) (k : Value) (s : ValueSet) : s ≤ setOf (addAll m k s) k := by
  rw [setOf_addAll, if_pos rfl]
  exact ValueSet.le_union_right _ _

/-- Adding to a set stays below a map that has the added values there. -/
theorem addAll_le {m bound : SetMap} {k : Value} {s : ValueSet} (within : m ≤ bound)
    (small : s ≤ setOf bound k)
    : addAll m k s ≤ bound := by
  intro l
  rw [setOf_addAll]
  split
  · rename_i equal
    rw [← setOf_congr bound equal]
    exact ValueSet.union_le (within k) small
  · exact within l

/-- What is known of all sets of a map stays known when a set that has it too is added. -/
theorem setOf_addAll_le {m : SetMap} {k : Value} {s bound : ValueSet}
    (within : ∀ l, setOf m l ≤ bound) (small : s ≤ bound) (l : Value)
    : setOf (addAll m k s) l ≤ bound := by
  rw [setOf_addAll]
  split
  · exact ValueSet.union_le (within k) small
  · exact within l

theorem keys_addAll {m : SetMap} {k : Value} (present : m.hasKey k = true) (s : ValueSet)
    : (addAll m k s).keys = m.keys :=
  ValueMap.keys_insert present _

theorem setOf_of_mem {m : SetMap} {entry : Value × ValueSet} (member : entry ∈ m.entries)
    : setOf m entry.1 = entry.2 := by
  rw [setOf, ValueMap.get?_of_mem member]
  rfl

/-- A value in the set of a key is in the set of an entry. -/
theorem exists_mem_of_has {m : SetMap} {k v : Value} (member : (setOf m k).has v = true)
    : ∃ entry ∈ m.entries, entry.1.key = k.key ∧ entry.2.has v = true := by
  rw [setOf] at member
  cases found : m.get? k with
  | none => simp [found] at member
  | some s =>
      obtain ⟨entry, hm, equal, rfl⟩ := ValueMap.exists_mem_of_get? found
      exact ⟨entry, hm, equal, by simpa [found] using member⟩

theorem setOf_of_get? {m : SetMap} {k : Value} {s : ValueSet} (found : m.get? k = some s)
    : setOf m k = s := by
  rw [setOf, found]
  rfl

/-- Maps of sets are the same exactly if they have the same keys and each is below the other. -/
theorem same_iff {m n : SetMap}
    : SetMap.same m n = true ↔ (∀ k, m.hasKey k = n.hasKey k) ∧ m ≤ n ∧ n ≤ m := by
  rw [SetMap.same, ValueMap.same_iff]
  constructor
  · rintro ⟨keys, related⟩
    have sets (k : Value) : setOf m k ≤ setOf n k ∧ setOf n k ≤ setOf m k := by
      cases left : m.get? k with
      | none =>
          have absent : n.get? k = none := by
            rw [ValueMap.get?_eq_none_iff, ← keys, ValueMap.get?_eq_none_iff.mp left]
          rw [setOf, setOf, left, absent]
          exact ⟨le_refl _, le_refl _⟩
      | some s =>
          have present : n.get? k ≠ none := by
            rw [← ValueMap.hasKey_iff_get?, ← keys, ValueMap.hasKey_iff_get?, left]
            simp
          obtain ⟨t, right⟩ := Option.ne_none_iff_exists'.mp present
          rw [setOf_of_get? left, setOf_of_get? right]
          exact ValueSet.same_iff_le.mp (related k s t left right)
    exact ⟨keys, fun k => (sets k).1, fun k => (sets k).2⟩
  · rintro ⟨keys, below, above⟩
    refine ⟨keys, fun k s t left right => ?_⟩
    rw [← setOf_of_get? left, ← setOf_of_get? right]
    exact ValueSet.same_iff_le.mpr ⟨below k, above k⟩

theorem le_of_same {m n : SetMap} (same : SetMap.same m n = true) : m ≤ n :=
  (same_iff.mp same).2.1

/-- The number of elements of a map, key by key. -/
theorem total_eq_sum (m : SetMap) : total m = (m.keys.map fun k => (setOf m k).size).sum := by
  have sizes : m.keys.map (fun k => (setOf m k).size)
      = m.entries.map fun entry => entry.2.size := by
    rw [ValueMap.keys, List.map_map]
    exact List.map_congr_left fun entry member => by
      simp only [Function.comp_apply, setOf_of_mem member]
  rw [sizes, total]
  induction m.entries with
  | nil => rfl
  | cons entry entries ih => simp [ih]

theorem total_le_of_le {m n : SetMap} (keys : n.keys = m.keys) (below : m ≤ n)
    : total m ≤ total n := by
  rw [total_eq_sum, total_eq_sum, keys]
  exact List.sum_le_sum fun k _ => ValueSet.size_le_of_le (below k)

/-- A map that grows while its keys stay has more elements, since one of its sets has. -/
theorem total_lt_of_changed {m n : SetMap} (keys : n.keys = m.keys) (below : m ≤ n)
    (changed : SetMap.same n m = false)
    : total m < total n := by
  have sizes := ValueMap.size_eq_of_keys keys
  have grown : ∃ entry ∈ n.entries, entry.2.same (setOf m entry.1) = false := by
    simp only [SetMap.same, ValueMap.same, sizes, beq_self_eq_true, Bool.true_and,
      List.all_eq_false] at changed
    obtain ⟨entry, member, differs⟩ := changed
    refine ⟨entry, member, ?_⟩
    have present : m.hasKey entry.1 = true := by
      rw [← ValueMap.hasKey_eq_of_keys keys, ValueMap.hasKey_of_mem member]
    cases found : m.get? entry.1 with
    | none => simp [ValueMap.get?_eq_none_iff.mp found] at present
    | some s => simpa [setOf, found] using differs
  obtain ⟨entry, member, differs⟩ := grown
  rw [total_eq_sum, total_eq_sum, keys]
  apply List.sum_lt_sum
  · intro k _
    exact ValueSet.size_le_of_le (below k)
  · refine ⟨entry.1, ?_, ?_⟩
    · rw [← keys]
      exact List.mem_map.mpr ⟨entry, member, rfl⟩
    · apply ValueSet.size_lt_of_changed (below entry.1)
      rwa [setOf_of_mem member]

/-- A map whose sets have only values of a list has at most that many for each key. -/
theorem total_le {m : SetMap} {values : List Value}
    (within : ∀ k, setOf m k ≤ .ofList values)
    : total m ≤ m.size * values.length := by
  rw [total_eq_sum]
  have bounded := List.sum_le_card_nsmul (m.keys.map fun k => (setOf m k).size) values.length
    (by
      intro n member
      obtain ⟨k, _, rfl⟩ := List.mem_map.mp member
      exact ValueSet.size_le_length (within k))
  simpa [ValueMap.keys, ValueMap.size] using bounded

def values (m : SetMap) : List Value :=
  m.entries.flatMap fun entry => entry.2.items

theorem length_values (m : SetMap) : (values m).length = total m := by
  rw [values, total]
  induction m.entries with
  | nil => rfl
  | cons entry entries ih => simp [ih, ValueSet.size]

/-- The set of each key is among all values of the map. -/
theorem setOf_le_values (m : SetMap) (k : Value) : setOf m k ≤ .ofList (values m) := by
  intro v member
  obtain ⟨entry, hm, _, hv⟩ := exists_mem_of_has member
  obtain ⟨w, hw, equal⟩ := ValueSet.has_iff.mp hv
  rw [ValueSet.has_ofList, List.any_eq_true]
  exact ⟨w, List.mem_flatMap.mpr ⟨entry, hm, hw⟩, by simpa using equal⟩

end SetMap

end PredictiveParsing
