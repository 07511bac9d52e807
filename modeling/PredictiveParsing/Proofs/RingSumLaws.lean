import PredictiveParsing.Proofs.CheckedLookUps
import PredictiveParsing.Proofs.RingSums

/-! Concatenation of first sets is associative, has the set of the mark of the empty word as its
unit, and grows with its parts. So a word can be split anywhere: its first set is the ring sum of
those of its parts.
-/

namespace PredictiveParsing

/-- A bracketing of sets: one set, or a group of bracketings, which may be empty. -/
inductive Bracketing where
  | one (set : ValueSet)
  | group (parts : List Bracketing)

namespace Bracketing

mutual

/-- The ring sum of a bracketing, from the ring sums of its parts. -/
def sum : Bracketing → ValueSet
  | .one set => set
  | .group parts => .ringSum (sums parts)

def sums : List Bracketing → List ValueSet
  | [] => []
  | part :: parts => part.sum :: sums parts

end

mutual

def sets : Bracketing → List ValueSet
  | .one set => [set]
  | .group parts => setsAll parts

def setsAll : List Bracketing → List ValueSet
  | [] => []
  | part :: parts => part.sets ++ setsAll parts

end

end Bracketing

namespace ValueSet

/-- A ring sum splits at any place, by induction on the sets before that place. -/
theorem has_ringSum_append (sets more : List ValueSet) (v : Value)
    : (ringSum (sets ++ more)).has v = ((ringSum sets).ringAdd (ringSum more)).has v := by
  induction sets generalizing v with
  | nil => exact (ringAdd_epsilon_left _ v).symm
  | cons s sets ih =>
      calc
        (ringSum (s :: (sets ++ more))).has v
        _ = (s.ringAdd (ringSum (sets ++ more))).has v := has_ringSum_cons s _ v
        _ = (s.ringAdd ((ringSum sets).ringAdd (ringSum more))).has v :=
          ringAdd_congr (fun _ => rfl) ih v
        _ = ((s.ringAdd (ringSum sets)).ringAdd (ringSum more)).has v :=
          (ringAdd_assoc s _ _ v).symm
        _ = ((ringSum (s :: sets)).ringAdd (ringSum more)).has v :=
          ringAdd_congr (fun w => (has_ringSum_cons s sets w).symm) (fun _ => rfl) v

/-- Two computations give the same set, or they fail alike. -/
def SameResult : Except Fault ValueSet → Except Fault ValueSet → Prop
  | .ok s, .ok t => s.same t = true
  | .error fault, .error other => fault = other
  | _, _ => False

end ValueSet

namespace Bracketing

mutual

/-- The ring sum of a bracketing is that of its sets, by induction on the bracketing. -/
theorem has_sum : ∀ (b : Bracketing) (v : Value), b.sum.has v = (ValueSet.ringSum b.sets).has v
  | .one _, _ => by rfl
  | .group parts, v => by
      rw [sum, sets]
      exact has_ringSum_sums parts v

theorem has_ringSum_sums : ∀ (parts : List Bracketing) (v : Value),
    (ValueSet.ringSum (sums parts)).has v = (ValueSet.ringSum (setsAll parts)).has v
  | [], _ => by rfl
  | part :: parts, v => by
      rw [sums, setsAll, ValueSet.has_ringSum_cons, ValueSet.has_ringSum_append]
      exact ValueSet.ringAdd_congr part.has_sum (has_ringSum_sums parts) v

end

end Bracketing

namespace SetMap

/-- The first set of two words in a row is the ring sum of their first sets. -/
theorem has_firstOf_append (first : SetMap) (word more : List Value) (v : Value)
    : (first.firstOf (word ++ more)).has v
      = (ValueSet.ringSum [first.firstOf word, first.firstOf more]).has v := by
  rw [firstOf, List.map_append]
  exact ValueSet.has_ringSum_append _ _ v

/-- A word can be looked up if both of its parts can. -/
theorem firstOfValue_append (first : SetMap) (word more : List Value)
    : ValueSet.SameResult (first.firstOfValue (.tuple (word ++ more))) (do
        let s ← first.firstOfValue (.tuple word)
        let t ← first.firstOfValue (.tuple more)
        .ok (.ringSum [s, t])) := by
  have both : Value.allHashable (word ++ more)
      = (Value.allHashable word && Value.allHashable more) := by
    rw [Bool.eq_iff_iff, Bool.and_eq_true]
    simp only [Value.allHashable_iff, List.forall_mem_append]
  have same := ValueSet.same_iff.mpr (first.has_firstOf_append word more)
  simp only [firstOfValue, Value.elements, bind, Except.bind, both]
  cases Value.allHashable word <;> cases Value.allHashable more <;> simp [ValueSet.SameResult, same]

end SetMap

/-- The laws of the ring sum and of first sets of words. The first set of a word is the ring sum of
those of two parts of it, and it fails to be computed if one of these does. Any bracketing of sets
has the ring sum of the sets. The set of the mark of the empty word is a unit on both sides, and the
sum of no sets. The ring sum grows with each set. It has the mark if all sets have it, and another
value if a set has that value and all sets before it have the mark.
-/
theorem ValueSet.ringSum_laws
    : (∀ (first : SetMap) (word more : List Value),
        (first.firstOf (word ++ more)).same (ringSum [first.firstOf word, first.firstOf more])
          = true
        ∧ SameResult (first.firstOfValue (.tuple (word ++ more))) (do
            let s ← first.firstOfValue (.tuple word)
            let t ← first.firstOfValue (.tuple more)
            .ok (ringSum [s, t])))
      ∧ (∀ b : Bracketing, b.sum.same (ringSum b.sets) = true)
      ∧ ringSum [] = singleton .epsilon
      ∧ (∀ s : ValueSet,
          (ringSum [singleton .epsilon, s]).same s = true
          ∧ (ringSum [s, singleton .epsilon]).same s = true)
      ∧ (∀ sets larger : List ValueSet,
          List.Forall₂ (fun s t => s.subset t = true) sets larger
          → (ringSum sets).subset (ringSum larger) = true)
      ∧ (∀ sets : List ValueSet,
          (ringSum sets).has .epsilon = true ↔ ∀ s ∈ sets, s.has .epsilon = true)
      ∧ ∀ (sets : List ValueSet) (v : Value),
          v ≠ .epsilon
          → ((ringSum sets).has v = true
            ↔ ∃ before s after,
                sets = before ++ s :: after
                ∧ (∀ t ∈ before, t.has .epsilon = true)
                ∧ s.has v = true) := by
  refine ⟨fun first word more => ⟨?_, first.firstOfValue_append word more⟩, fun b => ?_, rfl,
    fun s => ⟨?_, ?_⟩, fun sets larger below => ?_, fun _ => has_epsilon_ringSum,
    fun _ _ => has_ringSum⟩
  · exact same_iff.mpr (first.has_firstOf_append word more)
  · exact same_iff.mpr b.has_sum
  · exact same_iff.mpr s.ringAdd_epsilon_left
  · exact same_iff.mpr s.ringAdd_epsilon_right
  · apply subset_iff.mpr
    exact ringSum_mono (below.imp fun s t => subset_iff.mp)

theorem ValueSet.ringSum_laws_letters
    : let a : Value := .term (.text (.ofString "a"))
      let b : Value := .term (.text (.ofString "b"))
      let small : List ValueSet := [.singleton .epsilon, .singleton b]
      let large : List ValueSet := [.ofList [a, .epsilon], .singleton b]
      List.Forall₂ (fun s t => s.subset t = true) small large
      ∧ b ≠ .epsilon
      ∧ (ringSum small).subset (ringSum large) = true
      ∧ (ringSum large).has b = true := by
  intro a b small large
  have below : List.Forall₂ (fun s t => s.subset t = true) small large :=
    .cons (by decide) (.cons (by decide) .nil)
  have proper : b ≠ .epsilon := by decide
  obtain ⟨_, _, _, _, grows, _, splits⟩ := ringSum_laws
  refine ⟨below, proper, grows small large below, (splits large b proper).mpr ?_⟩
  exact ⟨[.ofList [a, .epsilon]], .singleton b, [], rfl, by decide, by decide⟩

end PredictiveParsing
