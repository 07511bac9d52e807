import PredictiveParsing.Analysis.First
import PredictiveParsing.Proofs.SetOrder

/-! Look-ups that can fail, and loops of steps that can: a value that is looked up has to be fit for
a set or a map, and a map has to have an entry for a key. Where these conditions hold, the loops
end as they do without checks.
-/

namespace PredictiveParsing

-----------------------------------------------------------------------------------------
-- Loops over rules, and passes until nothing changes
-----------------------------------------------------------------------------------------

/-- Repeats a pass that can fail until the state stays the same, but at most `fuel` times. -/
def settleChecked? {σ : Type} (same : σ → σ → Bool) (pass : σ → Except Fault σ)
    : Nat → σ → Except Fault (Option (Settled σ))
  | 0, _ => .ok none
  | fuel + 1, s => do
      let t ← pass s
      if same t s then
        .ok (some ⟨t, 1⟩)
      else
        .ok ((← settleChecked? same pass fuel t).map fun r => { r with passes := r.passes + 1 })

section Loops

variable {σ ρ : Type}

/-- Steps that never fail where an invariant holds make a loop that never fails, by induction on
the rules.
-/
theorem foldlM_eq_foldl (inv : σ → Prop) {checked : σ → ρ → Except Fault σ} {step : σ → ρ → σ}
    {rules : List ρ} (agree : ∀ r ∈ rules, ∀ s, inv s → checked s r = .ok (step s r))
    (keeps : ∀ r ∈ rules, ∀ s, inv s → inv (step s r)) {s : σ} (start : inv s)
    : rules.foldlM checked s = .ok (rules.foldl step s) := by
  induction rules generalizing s with
  | nil => rfl
  | cons r rules ih =>
      obtain ⟨first, later⟩ := List.forall_mem_cons.mp agree
      obtain ⟨kept, still⟩ := List.forall_mem_cons.mp keeps
      rw [List.foldlM_cons, first s start]
      exact ih later still (kept s start)

/-- A computation that succeeds for all items of a list maps the list, by induction. -/
theorem mapM_eq_map {f : σ → Except Fault ρ} {h : σ → ρ} {items : List σ}
    (agree : ∀ a ∈ items, f a = .ok (h a))
    : items.mapM f = .ok (items.map h) := by
  induction items with
  | nil => rfl
  | cons a items ih =>
      obtain ⟨first, later⟩ := List.forall_mem_cons.mp agree
      rw [List.mapM_cons, first, ih later]
      rfl

/-- What does not hold of all items does not hold of a first one, by induction. -/
theorem exists_first_not {holds : σ → Prop} {items : List σ} (fails : ¬ ∀ a ∈ items, holds a)
    : ∃ before a after,
        items = before ++ a :: after ∧ (∀ b ∈ before, holds b) ∧ ¬ holds a := by
  induction items with
  | nil => simp at fails
  | cons a items ih =>
      by_cases here : holds a
      · have later : ¬ ∀ b ∈ items, holds b := fun all =>
          fails (List.forall_mem_cons.mpr ⟨here, all⟩)
        obtain ⟨before, b, after, rfl, all, not⟩ := ih later
        exact ⟨a :: before, b, after, rfl, List.forall_mem_cons.mpr ⟨here, all⟩, not⟩
      · exact ⟨[], a, items, rfl, by simp, here⟩

/-- A computation that succeeds for all items of a list succeeds for the list, by induction. -/
theorem exists_mapM_eq_ok {f : σ → Except Fault ρ} {items : List σ}
    (passes : ∀ a ∈ items, ∃ b, f a = .ok b)
    : ∃ results, items.mapM f = .ok results := by
  induction items with
  | nil => exact ⟨[], rfl⟩
  | cons a items ih =>
      obtain ⟨⟨b, first⟩, later⟩ := List.forall_mem_cons.mp passes
      obtain ⟨results, rest⟩ := ih later
      exact ⟨b :: results, by rw [List.mapM_cons, first, rest]; rfl⟩

/-- The first step that fails decides, by induction on those before it. -/
theorem mapM_eq_error {f : σ → Except Fault ρ} {before after : List σ} {a : σ} {fault : Fault}
    (passes : ∀ b ∈ before, ∃ c, f b = .ok c) (fails : f a = .error fault)
    : (before ++ a :: after).mapM f = .error fault := by
  induction before with
  | nil => rw [List.nil_append, List.mapM_cons, fails]; rfl
  | cons b before ih =>
      obtain ⟨⟨c, first⟩, later⟩ := List.forall_mem_cons.mp passes
      rw [List.cons_append, List.mapM_cons, first, ih later]
      rfl

/-- Steps whose results tell what they were made of are undone one by one. -/
theorem map_of_mapM {f : σ → Except Fault ρ} {back : ρ → σ} {items : List σ} {results : List ρ}
    (undo : ∀ a b, f a = .ok b → back b = a) (passed : items.mapM f = .ok results)
    : results.map back = items := by
  induction items generalizing results with
  | nil => cases passed; rfl
  | cons a items ih =>
      rw [List.mapM_cons] at passed
      obtain ⟨b, first, passed⟩ := Fault.bind_eq_ok_iff.mp passed
      obtain ⟨rest, later, passed⟩ := Fault.bind_eq_ok_iff.mp passed
      cases passed
      rw [List.map_cons, undo a b first, ih later]

theorem forM_eq_ok {check : σ → Except Fault Unit} {items : List σ}
    (agree : ∀ a ∈ items, check a = .ok ())
    : items.forM check = .ok () := by
  induction items with
  | nil => rfl
  | cons a items ih =>
      obtain ⟨first, later⟩ := List.forall_mem_cons.mp agree
      rw [List.forM, first]
      exact ih later

/-- Passes that never fail where an invariant holds settle as they do without checks, by induction
on the number of passes allowed.
-/
theorem settleChecked?_eq (inv : σ → Prop) {same : σ → σ → Bool} {checked : σ → Except Fault σ}
    {pass : σ → σ} (agree : ∀ s, inv s → checked s = .ok (pass s))
    (keeps : ∀ s, inv s → inv (pass s)) (fuel : Nat) {s : σ} (start : inv s)
    : settleChecked? same checked fuel s = .ok (settle? same pass fuel s) := by
  induction fuel generalizing s with
  | zero => rfl
  | succ fuel ih =>
      rw [settleChecked?, agree s start, settle?]
      simp only [bind, Except.bind]
      split
      · rfl
      · rw [ih (keeps s start)]

end Loops

-----------------------------------------------------------------------------------------
-- Look-ups that can fail
-----------------------------------------------------------------------------------------

theorem Value.checkHashable_eq {v : Value} (hashable : v.hashable = true)
    : v.checkHashable = .ok () :=
  if_pos hashable

theorem Value.allHashable_iff {items : List Value}
    : allHashable items = true ↔ ∀ v ∈ items, v.hashable = true := by
  induction items with
  | nil => simp [allHashable]
  | cons item items ih => simp [allHashable, ih]

namespace ValueSet

/-- All values of a list are in a set. Those behind the first one that is not are not looked up. -/
def checkAll (s : ValueSet) : List Value → Except Fault Bool
  | [] => .ok true
  | v :: values => do
      if ← s.check v then s.checkAll values else .ok false

theorem check_eq (s : ValueSet) {v : Value} (hashable : v.hashable = true)
    : s.check v = .ok (s.has v) := by
  rw [check, Value.checkHashable_eq hashable]
  rfl

/-- If all values of a list can be looked up, the checked test is the plain one. By induction on the
list: a value that is no member ends both.
-/
theorem checkAll_eq (s : ValueSet) {values : List Value}
    (hashable : ∀ v ∈ values, v.hashable = true)
    : s.checkAll values = .ok (values.all s.has) := by
  induction values with
  | nil => rfl
  | cons v values ih =>
      obtain ⟨first, later⟩ := List.forall_mem_cons.mp hashable
      rw [checkAll, s.check_eq first, List.all_cons]
      cases s.has v with
      | true => exact ih later
      | false => rfl

/-- Values that are there already change nothing, by induction on them. -/
theorem union_eq_self {s t : ValueSet} (there : ∀ v ∈ t.items, s.has v = true)
    : s.union t = s := by
  rw [union]
  generalize t.items = items at there
  induction items with
  | nil => rfl
  | cons v items ih =>
      obtain ⟨first, later⟩ := List.forall_mem_cons.mp there
      rw [List.foldl_cons, insert, dif_pos first, ih later]

end ValueSet

namespace ValueMap

variable {β : Type} {m : ValueMap β} {k l : Value} {b c : β}

theorem eq_of_entries {n : ValueMap β} (entries : m.entries = n.entries) : m = n := by
  cases m
  cases n
  cases entries
  rfl

/-- A key that is there keeps its place when its element is set. -/
theorem entries_insert (present : m.hasKey k = true) (b : β)
    : (m.insert k b).entries = m.entries.map (overwrite k b) := by
  rw [insert, dif_pos present]

/-- Setting the element of a key to what it is changes nothing. -/
theorem insert_eq_self (found : m.get? k = some b) : m.insert k b = m := by
  have present : m.hasKey k = true := hasKey_iff_get?.mpr (by simp [found])
  apply eq_of_entries
  rw [entries_insert present]
  refine (List.map_congr_left fun entry member => ?_).trans (List.map_id _)
  rw [overwrite]
  split
  · rename_i same
    rw [← m.get?_congr same, get?_of_mem member] at found
    rw [← Option.some.inj found]
    rfl
  · rfl

/-- Keys that count as one have one entry, so it does not matter for which of them an element is
set.
-/
theorem insert_congr (present : m.hasKey k = true) (same : k.key = l.key) (b : β)
    : m.insert k b = m.insert l b := by
  have present' : m.hasKey l = true := by rwa [hasKey_iff_mem, ← same, ← hasKey_iff_mem]
  have overwrites : overwrite k b = overwrite l b := by
    funext entry
    rw [overwrite, same, overwrite]
  apply eq_of_entries
  rw [entries_insert present, entries_insert present', overwrites]

/-- The elements of different keys can be set in either order. -/
theorem insert_comm (first : m.hasKey k = true) (second : m.hasKey l = true)
    (different : k.key ≠ l.key)
    : (m.insert k b).insert l c = (m.insert l c).insert k b := by
  have first' : (m.insert l c).hasKey k = true := by
    rw [hasKey_eq_of_keys (keys_insert second c), first]
  have second' : (m.insert k b).hasKey l = true := by
    rw [hasKey_eq_of_keys (keys_insert first b), second]
  apply eq_of_entries
  rw [entries_insert second', entries_insert first, entries_insert first', entries_insert second,
    List.map_map, List.map_map]
  refine List.map_congr_left fun entry _ => ?_
  simp only [Function.comp_apply, overwrite]
  by_cases left : entry.1.key = k.key
  · simp [left, different]
  · by_cases right : entry.1.key = l.key
    · simp [right, Ne.symm different]
    · simp [left, right]

end ValueMap

namespace SetMap

def lookUp (m : SetMap) (k : Value) : Except Fault ValueSet := do
  k.checkHashable
  match m.get? k with
  | some s => .ok s
  | none => .error (.missingKey k)

def extend (m : SetMap) (k : Value) (s : ValueSet) : Except Fault SetMap := do
  let _ ← m.lookUp k
  .ok (m.addAll k s)

variable {m : SetMap} {k l : Value}

/-- Looking up a key that has an entry gives its set. -/
theorem lookUp_eq (present : m.hasKey k = true) (hashable : k.hashable = true)
    : m.lookUp k = .ok (setOf m k) := by
  obtain ⟨s, found⟩ := Option.ne_none_iff_exists'.mp (ValueMap.hasKey_iff_get?.mp present)
  rw [lookUp, Value.checkHashable_eq hashable, found, setOf_of_get? found]
  rfl

theorem extend_eq (present : m.hasKey k = true) (hashable : k.hashable = true) (s : ValueSet)
    : m.extend k s = .ok (addAll m k s) := by
  rw [extend, lookUp_eq present hashable]
  rfl

/-- The first set of a word does not fail if all values of the word can be looked up. -/
theorem firstOfValue_eq (first : SetMap) {word : List Value}
    (hashable : ∀ v ∈ word, v.hashable = true)
    : first.firstOfValue (.tuple word) = .ok (first.firstOf word) := by
  have all : (if Value.allHashable word then Except.ok (first.firstOf word)
      else Except.error Fault.unhashable) = Except.ok (first.firstOf word) :=
    if_pos (Value.allHashable_iff.mpr hashable)
  exact all

/-- Adding values that the set of a key has already changes nothing. -/
theorem addAll_eq_self (present : m.hasKey k = true) {s : ValueSet}
    (there : ∀ v ∈ s.items, (setOf m k).has v = true)
    : addAll m k s = m := by
  obtain ⟨t, found⟩ := Option.ne_none_iff_exists'.mp (ValueMap.hasKey_iff_get?.mp present)
  rw [addAll, ValueSet.union_eq_self there, setOf_of_get? found]
  exact ValueMap.insert_eq_self found

theorem addAll_empty (present : m.hasKey k = true) : addAll m k ∅ = m :=
  addAll_eq_self present fun _ member => False.elim (List.not_mem_nil member)

/-- Adds the set of one key to the set of another one. -/
def spread (source : Value) (m : SetMap) (k : Value) : SetMap :=
  addAll m k (setOf m source)

theorem hasKey_spread (present : m.hasKey k = true) (source : Value)
    : (spread source m k).hasKey l = m.hasKey l :=
  ValueMap.hasKey_eq_of_keys (keys_addAll present _) l

/-- Adding the set of a key to itself changes nothing. -/
theorem spread_eq_self {source : Value} (present : m.hasKey k = true) (same : k.key = source.key)
    : spread source m k = m := by
  refine addAll_eq_self present fun v member => ?_
  rw [setOf_congr m same]
  exact ValueSet.has_of_mem member

/-- A set is added to those of two keys in either order: it stays as it is meanwhile. -/
theorem spread_comm {source : Value} (first : m.hasKey k = true) (second : m.hasKey l = true)
    : spread source (spread source m k) l = spread source (spread source m l) k := by
  have second' := (hasKey_spread first source).trans second
  have first' := (hasKey_spread second source).trans first
  by_cases left : k.key = source.key
  · rw [spread_eq_self first left, spread_eq_self first' left]
  by_cases right : l.key = source.key
  · rw [spread_eq_self second right, spread_eq_self second' right]
  by_cases same : k.key = l.key
  · have equal (n : SetMap) (present : n.hasKey k = true)
        : spread source n l = spread source n k := by
      rw [spread, spread, addAll, addAll, setOf_congr n same]
      exact (ValueMap.insert_congr present same _).symm
    rw [equal _ ((hasKey_spread first source).trans first), equal _ first]
  · have kept (x y : Value) (apart : ¬ x.key = y.key)
        : setOf (spread source m x) y = setOf m y := by
      rw [spread, setOf_addAll, if_neg apart]
    have both (x y : Value) (free : ¬ x.key = source.key) (apart : ¬ x.key = y.key)
        : spread source (spread source m x) y
          = (m.insert x ((setOf m x).union (setOf m source))).insert y
              ((setOf m y).union (setOf m source)) := by
      rw [spread, kept x source free, addAll, kept x y apart]
      rfl
    rw [both k l left same, both l k right (Ne.symm same)]
    exact ValueMap.insert_comm first second same

end SetMap

end PredictiveParsing
