import PredictiveParsing.ValueSet

/-! Finite maps from values, in the order in which their keys were first added. Keys that
count as one are the same key, and the one that was added first is kept.
-/

namespace PredictiveParsing

/-- A finite map from values to elements of a type. -/
structure ValueMap (β : Type) where
  entries : List (Value × β)
  distinct : (entries.map fun entry => entry.1.key).Nodup

namespace ValueMap

variable {β : Type}

def empty : ValueMap β :=
  ⟨[], List.nodup_nil⟩

instance : EmptyCollection (ValueMap β) := ⟨empty⟩

instance : Inhabited (ValueMap β) := ⟨empty⟩

/-- The keys, in the order in which they were added. -/
def keys (m : ValueMap β) : List Value :=
  m.entries.map Prod.fst

def size (m : ValueMap β) : Nat :=
  m.entries.length

def get? (m : ValueMap β) (k : Value) : Option β :=
  (m.entries.find? fun entry => decide (entry.1.key = k.key)).map Prod.snd

def hasKey (m : ValueMap β) (k : Value) : Bool :=
  m.entries.any fun entry => decide (entry.1.key = k.key)

/-- An entry with its element replaced if it has the given key. -/
def overwrite (k : Value) (b : β) (entry : Value × β) : Value × β :=
  if entry.1.key = k.key then (entry.1, b) else entry

/-- Overwriting leaves the keys as they are, entry by entry. -/
theorem overwrite_fst (k : Value) (b : β) (entry : Value × β)
    : (overwrite k b entry).1 = entry.1 := by
  unfold overwrite
  split <;> rfl

/-- Sets the element of a key, in its old place if the key is there already. -/
def insert (m : ValueMap β) (k : Value) (b : β) : ValueMap β :=
  if h : m.hasKey k then
    ⟨m.entries.map (overwrite k b), by
      have : (fun entry : Value × β => entry.1.key) ∘ overwrite k b
          = fun entry => entry.1.key := by
        funext entry
        simp [overwrite_fst]
      rw [List.map_map, this]
      exact m.distinct⟩
  else
    ⟨m.entries ++ [(k, b)], by
      rw [List.map_append, List.nodup_append]
      refine ⟨m.distinct, by simp, ?_⟩
      intro a ha c hc
      obtain ⟨entry, he, rfl⟩ := List.mem_map.mp ha
      simp only [List.map_cons, List.map_nil, List.mem_singleton] at hc
      rintro rfl
      exact h (List.any_eq_true.mpr ⟨entry, he, by simpa using hc⟩)⟩

/-- The map of a list of entries, a later one replacing the element of an earlier one. -/
def ofList (entries : List (Value × β)) : ValueMap β :=
  entries.foldl (fun m entry => m.insert entry.1 entry.2) ∅

/-- The entries of another map added to those of a map, replacing elements of the same key. -/
def update (m other : ValueMap β) : ValueMap β :=
  other.entries.foldl (fun m entry => m.insert entry.1 entry.2) m

/-- Two maps are the same when they have the same keys with related elements. -/
def same (related : β → β → Bool) (m n : ValueMap β) : Bool :=
  m.size == n.size
    && m.entries.all fun entry =>
      match n.get? entry.1 with
      | some b => related entry.2 b
      | none => false

-----------------------------------------------------------------------------------------
-- Entries after each operation
-----------------------------------------------------------------------------------------

/-- The empty map has no entry. -/
@[simp] theorem get?_empty (k : Value) : (∅ : ValueMap β).get? k = none := rfl

/-- Keys that count as one have the same entry. -/
theorem get?_congr (m : ValueMap β) {k l : Value} (h : k.key = l.key)
    : m.get? k = m.get? l := by
  simp [get?, h]

/-- A key has an entry when some entry's key counts as it. -/
theorem hasKey_iff {m : ValueMap β} {k : Value}
    : m.hasKey k = true ↔ ∃ entry ∈ m.entries, entry.1.key = k.key := by
  simp [hasKey]

/-- Only a key without entry looks up nothing. -/
theorem get?_eq_none_iff {m : ValueMap β} {k : Value}
    : m.get? k = none ↔ m.hasKey k = false := by
  simp [get?, hasKey]

/-- Overwriting the entries of a key changes what the key looks up and nothing else, by
induction on the entries.
-/
theorem find?_overwrite (k l : Value) (b : β) (entries : List (Value × β))
    : ((entries.map (overwrite k b)).find? fun entry => decide (entry.1.key = l.key))
      = (entries.find? fun entry => decide (entry.1.key = l.key)).map (overwrite k b) := by
  induction entries with
  | nil => rfl
  | cons entry entries ih =>
      rw [List.map_cons, List.find?_cons, List.find?_cons, overwrite_fst, ih]
      split <;> simp_all

/-- After setting the element of a key, the key has it and the others are as they were. -/
@[simp] theorem get?_insert (m : ValueMap β) (k l : Value) (b : β)
    : (m.insert k b).get? l = if k.key = l.key then some b else m.get? l := by
  unfold insert
  split
  · rename_i h
    simp only [get?, find?_overwrite]
    by_cases hk : k.key = l.key
    · rw [if_pos hk]
      obtain ⟨entry, hm, he⟩ := hasKey_iff.mp h
      cases hf : m.entries.find? fun entry => decide (entry.1.key = l.key) with
      | none =>
          have := List.find?_eq_none.mp hf entry hm
          simp [he, hk] at this
      | some found =>
          have hl : found.1.key = l.key := by simpa using List.find?_some hf
          simp [overwrite, hl, hk]
    · rw [if_neg hk]
      cases hf : m.entries.find? fun entry => decide (entry.1.key = l.key) with
      | none => rfl
      | some found =>
          have hl : found.1.key = l.key := by simpa using List.find?_some hf
          have : ¬ found.1.key = k.key := fun h => hk (h.symm.trans hl)
          simp [overwrite, this]
  · rename_i h
    simp only [get?, List.find?_append]
    by_cases hk : k.key = l.key
    · have : m.entries.find? (fun entry => decide (entry.1.key = l.key)) = none := by
        rw [List.find?_eq_none]
        intro entry hm he
        exact h (hasKey_iff.mpr ⟨entry, hm, by simpa [hk] using he⟩)
      simp [this, hk]
    · simp [hk]

end ValueMap

/-- A finite map from values to sets of values. A key without entry stands for the empty
set.
-/
abbrev SetMap := ValueMap ValueSet

namespace SetMap

def setOf (m : SetMap) (k : Value) : ValueSet :=
  (m.get? k).getD ∅

def addAll (m : SetMap) (k : Value) (s : ValueSet) : SetMap :=
  m.insert k ((setOf m k).union s)

/-- Keys that count as one have the same set. -/
theorem setOf_congr (m : SetMap) {k l : Value} (h : k.key = l.key) : setOf m k = setOf m l := by
  rw [setOf, setOf, ValueMap.get?_congr m h]

/-- Adding to the set of a key changes that set and no other. -/
@[simp] theorem setOf_addAll (m : SetMap) (k l : Value) (s : ValueSet)
    : setOf (addAll m k s) l
      = if k.key = l.key then (setOf m k).union s else setOf m l := by
  unfold addAll
  rw [setOf, ValueMap.get?_insert]
  split <;> rfl

/-- After adding to the set of a key, that set has the values that were added, too. -/
theorem has_setOf_addAll {m : SetMap} {k l v : Value} {s : ValueSet}
    : (setOf (addAll m k s) l).has v = true
      ↔ (setOf m l).has v = true ∨ k.key = l.key ∧ s.has v = true := by
  rw [setOf_addAll]
  split
  · rename_i same
    simp [same, setOf_congr m same]
  · rename_i other
    simp [other]

/-- Two maps are the same when they have the same keys with the same sets. -/
def same (m n : SetMap) : Bool :=
  ValueMap.same ValueSet.same m n

def total (m : SetMap) : Nat :=
  m.entries.foldr (fun entry n => entry.2.size + n) 0

end SetMap

end PredictiveParsing
