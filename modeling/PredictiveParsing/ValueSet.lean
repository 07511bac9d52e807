import PredictiveParsing.Fault

/-! Finite sets of values. A set holds at most one of the values that count as one, namely the
one that was added first.
-/

namespace PredictiveParsing

/-- A finite set of values, in the order in which they were added. -/
structure ValueSet where
  items : List Value
  distinct : (items.map Value.key).Nodup

namespace ValueSet

/-- Membership, where values that count as one are not told apart. -/
def has (s : ValueSet) (v : Value) : Bool :=
  s.items.any fun w => decide (w.key = v.key)

/-- A set has a value when one that counts as it is an element. -/
theorem has_iff {s : ValueSet} {v : Value} : s.has v = true ↔ ∃ w ∈ s.items, w.key = v.key := by
  simp [has]

/-- The elements of a set are in it. -/
theorem has_of_mem {s : ValueSet} {v : Value} (h : v ∈ s.items) : s.has v = true :=
  has_iff.mpr ⟨v, h, rfl⟩

def empty : ValueSet :=
  ⟨[], List.nodup_nil⟩

instance : EmptyCollection ValueSet := ⟨empty⟩

instance : Inhabited ValueSet := ⟨empty⟩

def size (s : ValueSet) : Nat :=
  s.items.length

def singleton (v : Value) : ValueSet :=
  ⟨[v], by simp⟩

/-- Adds a value, unless one that counts as it is there already. -/
def insert (s : ValueSet) (v : Value) : ValueSet :=
  if h : s.has v then s
  else
    ⟨s.items ++ [v], by
      rw [List.map_append, List.nodup_append]
      refine ⟨s.distinct, by simp, ?_⟩
      intro a ha b hb
      obtain ⟨w, hw, rfl⟩ := List.mem_map.mp ha
      simp only [List.map_cons, List.map_nil, List.mem_singleton] at hb
      rintro rfl
      exact h (has_iff.mpr ⟨w, hw, hb⟩)⟩

def ofList (values : List Value) : ValueSet :=
  values.foldl insert ∅

/-- The values of both sets; of values that count as one, the left set's. -/
def union (s t : ValueSet) : ValueSet :=
  t.items.foldl insert s

def filter (s : ValueSet) (keep : Value → Bool) : ValueSet :=
  ⟨s.items.filter keep, s.distinct.sublist (List.filter_sublist.map Value.key)⟩

/-- Takes a value away, together with what counts as it. -/
def erase (s : ValueSet) (v : Value) : ValueSet :=
  s.filter fun w => decide (w.key ≠ v.key)

/-- The values that both sets have, as they stand in the smaller one; in the right one when
both are equally large.
-/
def inter (s t : ValueSet) : ValueSet :=
  if s.size < t.size then s.filter t.has else t.filter s.has

def subset (s t : ValueSet) : Bool :=
  s.items.all t.has

/-- Two sets are the same when they have the same values. -/
def same (s t : ValueSet) : Bool :=
  s.subset t && t.subset s

/-- The set of the elements of a value, provided that all of them can be elements. -/
def ofValue (value : Value) : Except Fault ValueSet := do
  let items ← value.elements
  if Value.allHashable items then .ok (ofList items) else .error .unhashable

/-- Membership of a value that has to be able to be an element. -/
def check (s : ValueSet) (v : Value) : Except Fault Bool := do
  v.checkHashable
  .ok (s.has v)

-----------------------------------------------------------------------------------------
-- Membership after each operation
-----------------------------------------------------------------------------------------

@[simp] theorem has_empty (v : Value) : (∅ : ValueSet).has v = false := rfl

/-- The set of one value has what counts as that value. -/
@[simp] theorem has_singleton (w v : Value)
    : (singleton w).has v = decide (w.key = v.key) := by
  simp [has, singleton]

/-- Adding a value adds it and nothing else. -/
@[simp] theorem has_insert (s : ValueSet) (w v : Value)
    : (s.insert w).has v = (decide (w.key = v.key) || s.has v) := by
  unfold insert
  split
  · rename_i h
    by_cases hk : w.key = v.key
    · obtain ⟨u, hu, huw⟩ := has_iff.mp h
      have : s.has v = true := has_iff.mpr ⟨u, hu, huw.trans hk⟩
      simp [this]
    · simp [hk]
  · simp [has, Bool.or_comm]

/-- Adding the values of a list adds them and nothing else, by induction on the list. -/
theorem has_foldl_insert (values : List Value) (s : ValueSet) (v : Value)
    : (values.foldl insert s).has v
      = (values.any (fun w => decide (w.key = v.key)) || s.has v) := by
  induction values generalizing s with
  | nil => simp
  | cons w values ih =>
      simp only [List.foldl_cons, ih, has_insert, List.any_cons]
      cases decide (w.key = v.key) <;> cases s.has v <;>
        cases values.any (fun w => decide (w.key = v.key)) <;> rfl

/-- The set of a list has what counts as a value of the list. -/
@[simp] theorem has_ofList (values : List Value) (v : Value)
    : (ofList values).has v = values.any (fun w => decide (w.key = v.key)) := by
  simp [ofList, has_foldl_insert]

/-- The union has what one of the sets has. -/
@[simp] theorem has_union (s t : ValueSet) (v : Value)
    : (s.union t).has v = (s.has v || t.has v) := by
  rw [union, has_foldl_insert, Bool.or_comm]
  rfl

/-- Filtering by a condition that does not tell apart values that count as one keeps exactly
the members that satisfy it.
-/
theorem has_filter (s : ValueSet) (keep : Value → Bool)
    (hkeep : ∀ a b : Value, a.key = b.key → keep a = keep b) (v : Value)
    : (s.filter keep).has v = (s.has v && keep v) := by
  rw [Bool.eq_iff_iff, Bool.and_eq_true, has_iff, has_iff]
  constructor
  · rintro ⟨w, hw, hk⟩
    obtain ⟨hm, hkw⟩ := List.mem_filter.mp hw
    exact ⟨⟨w, hm, hk⟩, hkeep w v hk ▸ hkw⟩
  · rintro ⟨⟨w, hw, hk⟩, hv⟩
    exact ⟨w, List.mem_filter.mpr ⟨hw, (hkeep w v hk).trans hv⟩, hk⟩

/-- Membership does not tell apart values that count as one. -/
theorem has_congr (s : ValueSet) {v w : Value} (h : v.key = w.key) : s.has v = s.has w := by
  simp [has, h]

/-- Taking a value away leaves what does not count as it. -/
@[simp] theorem has_erase (s : ValueSet) (w v : Value)
    : (s.erase w).has v = (s.has v && decide (v.key ≠ w.key)) :=
  has_filter s _ (fun _ _ h => by simp [h]) v

/-- The intersection has what both sets have. -/
@[simp] theorem has_inter (s t : ValueSet) (v : Value)
    : (s.inter t).has v = (s.has v && t.has v) := by
  unfold inter
  split
  · exact has_filter s _ (fun _ _ h => has_congr t h) v
  · rw [has_filter t _ (fun _ _ h => has_congr s h) v, Bool.and_comm]

/-- One set is part of another when whatever it has is in the other. -/
theorem subset_iff {s t : ValueSet}
    : s.subset t = true ↔ ∀ v, s.has v = true → t.has v = true := by
  simp only [subset, List.all_eq_true]
  constructor
  · intro h v hv
    obtain ⟨w, hw, hk⟩ := has_iff.mp hv
    exact has_congr t hk ▸ h w hw
  · intro h w hw
    exact h w (has_of_mem hw)

/-- Two sets are the same when membership is. -/
theorem same_iff {s t : ValueSet} : s.same t = true ↔ ∀ v, s.has v = t.has v := by
  simp only [same, Bool.and_eq_true, subset_iff]
  constructor
  · rintro ⟨h, k⟩ v
    rw [Bool.eq_iff_iff]
    exact ⟨h v, k v⟩
  · intro h
    exact ⟨fun v hv => h v ▸ hv, fun v hv => h v ▸ hv⟩

end ValueSet

end PredictiveParsing
