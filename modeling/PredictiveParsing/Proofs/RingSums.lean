import Mathlib.Data.List.Forall2
import PredictiveParsing.Analysis.First
import PredictiveParsing.Proofs.SetOrder

/-! First sets of words, read from the left: a symbol contributes while all symbols before it
can vanish, and the mark of the empty word stays if all of them can.
-/

namespace PredictiveParsing

theorem Value.epsilon_key_eq {v : Value} : Value.epsilon.key = v.key ↔ v = .epsilon :=
  eq_comm.trans Value.key_eq_epsilon

namespace ValueSet

theorem ringAdd_congr {s t u w : ValueSet} (left : ∀ v, s.has v = t.has v)
    (right : ∀ v, u.has v = w.has v) (v : Value)
    : (s.ringAdd u).has v = (t.ringAdd w).has v := by
  simp only [has_ringAdd, left, right]

/-- Concatenation is associative, by the cases of the mark and of other values. -/
theorem ringAdd_assoc (s t u : ValueSet) (v : Value)
    : ((s.ringAdd t).ringAdd u).has v = (s.ringAdd (t.ringAdd u)).has v := by
  simp only [has_ringAdd, Value.key_eq_epsilon]
  by_cases mark : v = .epsilon
  · simp [mark, Bool.and_assoc]
  · simp only [mark, if_false, if_true]
    cases s.has .epsilon <;> simp [Bool.or_assoc]

/-- The mark of the empty word by itself is neutral on the left. -/
theorem ringAdd_epsilon_left (s : ValueSet) (v : Value)
    : ((singleton .epsilon).ringAdd s).has v = s.has v := by
  by_cases mark : v = .epsilon <;> simp [has_ringAdd, Value.epsilon_key_eq, mark]

theorem ringAdd_epsilon_right (s : ValueSet) (v : Value)
    : (s.ringAdd (singleton .epsilon)).has v = s.has v := by
  by_cases mark : v = .epsilon <;> simp [has_ringAdd, Value.epsilon_key_eq, mark]

/-- The running sum splits behind its first set, by induction on the other sets: adding the
sum of the rest is the same as adding the rest one by one.
-/
theorem has_foldl_ringAdd (sets : List ValueSet) (s : ValueSet) (v : Value)
    : (sets.foldl ringAdd s).has v = (s.ringAdd (ringSum sets)).has v := by
  induction sets generalizing s v with
  | nil => exact (ringAdd_epsilon_right s v).symm
  | cons t sets ih =>
      calc
        (sets.foldl ringAdd (s.ringAdd t)).has v
        _ = ((s.ringAdd t).ringAdd (ringSum sets)).has v := ih (s.ringAdd t) v
        _ = (s.ringAdd (t.ringAdd (ringSum sets))).has v := ringAdd_assoc s t _ v
        _ = (s.ringAdd (ringSum (t :: sets))).has v :=
          ringAdd_congr (fun _ => rfl) (fun w => (ih t w).symm) v

/-- A ring sum is the first set concatenated with the ring sum of the others. -/
theorem has_ringSum_cons (s : ValueSet) (sets : List ValueSet) (v : Value)
    : (ringSum (s :: sets)).has v = (s.ringAdd (ringSum sets)).has v :=
  has_foldl_ringAdd sets s v

/-- The mark of the empty word is in a ring sum if it is in every set, by induction on the sets. -/
theorem has_epsilon_ringSum {sets : List ValueSet}
    : (ringSum sets).has .epsilon = true ↔ ∀ s ∈ sets, s.has .epsilon = true := by
  induction sets with
  | nil => simp [ringSum]
  | cons s sets ih => simp [has_ringSum_cons, has_ringAdd, Value.key, ih]

/-- A value other than the mark comes from a set behind sets that have the mark, by induction on the
sets.
-/
theorem has_ringSum {sets : List ValueSet} {v : Value} (proper : v ≠ .epsilon)
    : (ringSum sets).has v = true
      ↔ ∃ before s after,
          sets = before ++ s :: after
          ∧ (∀ t ∈ before, t.has .epsilon = true)
          ∧ s.has v = true := by
  induction sets with
  | nil => simp [ringSum, Value.epsilon_key_eq, proper]
  | cons s sets ih =>
      simp only [has_ringSum_cons, has_ringAdd, Value.key_eq_epsilon, proper, if_false,
        Bool.or_eq_true, Bool.and_eq_true, ih]
      constructor
      · rintro (here | ⟨vanishes, before, t, after, rfl, erased, found⟩)
        · exact ⟨[], s, sets, rfl, by simp, here⟩
        · refine ⟨s :: before, t, after, rfl, ?_, found⟩
          exact List.forall_mem_cons.mpr ⟨vanishes, erased⟩
      · rintro ⟨before, t, after, split, erased, found⟩
        rcases List.cons_eq_append_iff.mp split with ⟨rfl, same⟩ | ⟨rest, rfl, rfl⟩
        · obtain ⟨rfl, rfl⟩ := List.cons_eq_cons.mp same
          exact Or.inl found
        · obtain ⟨vanishes, erased⟩ := List.forall_mem_cons.mp erased
          exact Or.inr ⟨vanishes, rest, t, after, rfl, erased, found⟩

/-- Larger sets have a larger ring sum: the mark is still in every set that had it. -/
theorem ringSum_mono {sets larger : List ValueSet} (below : List.Forall₂ (· ≤ ·) sets larger)
    : ringSum sets ≤ ringSum larger := by
  induction below with
  | nil => exact le_refl _
  | cons here _ ih =>
      intro v
      simp only [has_ringSum_cons, has_ringAdd]
      split
      · simp only [Bool.and_eq_true]
        exact And.imp (here _) (ih _)
      · simp only [Bool.or_eq_true, Bool.and_eq_true]
        exact Or.imp (here v) (And.imp (here _) (ih v))

end ValueSet

namespace SetMap

/-- What begins a word begins its first symbol or, if this vanishes, the rest. The word vanishes if
both do.
-/
theorem has_firstOf_cons (first : SetMap) (x : Value) (word : List Value) (v : Value)
    : (first.firstOf (x :: word)).has v
      = if v = .epsilon then
          (first.firstOfSymbol x).has .epsilon && (first.firstOf word).has .epsilon
        else
          (first.firstOfSymbol x).has v
          || ((first.firstOfSymbol x).has .epsilon && (first.firstOf word).has v) := by
  simp only [firstOf, List.map_cons, ValueSet.has_ringSum_cons, ValueSet.has_ringAdd,
    Value.key_eq_epsilon]

/-- The mark of the empty word is in the first set of a word if it is in that of every symbol. -/
theorem has_epsilon_firstOf {first : SetMap} {word : List Value}
    : (first.firstOf word).has .epsilon = true
      ↔ ∀ x ∈ word, (first.firstOfSymbol x).has .epsilon = true := by
  rw [firstOf, ValueSet.has_epsilon_ringSum, List.forall_mem_map]

/-- A value other than the mark comes from a symbol behind symbols that can vanish. -/
theorem has_firstOf {first : SetMap} {word : List Value} {v : Value} (proper : v ≠ .epsilon)
    : (first.firstOf word).has v = true
      ↔ ∃ before x after,
          word = before ++ x :: after
          ∧ (∀ y ∈ before, (first.firstOfSymbol y).has .epsilon = true)
          ∧ (first.firstOfSymbol x).has v = true := by
  rw [firstOf, ValueSet.has_ringSum proper]
  constructor
  · rintro ⟨before, s, after, sets, erased, found⟩
    obtain ⟨front, rest, rfl, rfl, tail⟩ := List.map_eq_append_iff.mp sets
    obtain ⟨x, back, rfl, rfl, rfl⟩ := List.map_eq_cons_iff.mp tail
    exact ⟨front, x, back, rfl, fun y hy => erased _ (List.mem_map_of_mem hy), found⟩
  · rintro ⟨before, x, after, rfl, erased, found⟩
    refine ⟨before.map first.firstOfSymbol, first.firstOfSymbol x, after.map first.firstOfSymbol,
      ?_, List.forall_mem_map.mpr erased, found⟩
    rw [List.map_append, List.map_cons]

/-- The symbols of a body take the place of their values. -/
theorem has_firstOf_body {first : SetMap} {body : List Symbol} {v : Value}
    (proper : v ≠ .epsilon)
    : (first.firstOf (body.map Symbol.toValue)).has v = true
      ↔ ∃ before s after,
          body = before ++ s :: after
          ∧ (∀ x ∈ before, (first.firstOfSymbol x.toValue).has .epsilon = true)
          ∧ (first.firstOfSymbol s.toValue).has v = true := by
  rw [has_firstOf proper]
  constructor
  · rintro ⟨before, x, after, word, erased, found⟩
    obtain ⟨front, rest, rfl, rfl, tail⟩ := List.map_eq_append_iff.mp word
    obtain ⟨s, back, rfl, rfl, rfl⟩ := List.map_eq_cons_iff.mp tail
    exact ⟨front, s, back, rfl, fun x hx => erased _ (List.mem_map_of_mem hx), found⟩
  · rintro ⟨before, s, after, rfl, erased, found⟩
    refine ⟨before.map Symbol.toValue, s.toValue, after.map Symbol.toValue, ?_, ?_, found⟩
    · rw [List.map_append, List.map_cons]
    · exact List.forall_mem_map.mpr erased

theorem firstOfSymbol_mono {m n : SetMap} (below : m ≤ n) (x : Value)
    : m.firstOfSymbol x ≤ n.firstOfSymbol x := by
  cases x with
  | nonterm name => exact below (.nonterm name)
  | _ => exact le_refl _

/-- Larger first sets give larger first sets of words. -/
theorem firstOf_mono {m n : SetMap} (below : m ≤ n) (word : List Value)
    : m.firstOf word ≤ n.firstOf word := by
  apply ValueSet.ringSum_mono
  rw [List.forall₂_map_left_iff, List.forall₂_map_right_iff]
  exact List.forall₂_same.mpr fun x _ => firstOfSymbol_mono below x

/-- A first set has no other values than the sets of the map, the symbols of the word and the
mark of the empty word.
-/
theorem firstOf_le {m : SetMap} {word : List Value} {bound : ValueSet}
    (within : ∀ k, setOf m k ≤ bound) (symbols : ∀ x ∈ word, bound.has x = true)
    (mark : bound.has .epsilon = true)
    : m.firstOf word ≤ bound := by
  intro v member
  by_cases proper : v = .epsilon
  · exact proper ▸ mark
  · obtain ⟨before, x, after, rfl, _, found⟩ := (has_firstOf proper).mp member
    cases x with
    | nonterm name => exact within _ v found
    | _ =>
        simp only [firstOfSymbol, ValueSet.has_singleton, decide_eq_true_eq] at found
        rw [← bound.has_congr found]
        exact symbols _ (by simp)

end SetMap

end PredictiveParsing
