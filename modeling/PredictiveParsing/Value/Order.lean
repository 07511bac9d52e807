import PredictiveParsing.Fault

/-! The ascending order of values. Numbers are ordered by size and texts by their code points;
lists and tuples are ordered by the first place where they differ. Values of other kinds, and of
kinds that differ, have no order.
-/

namespace PredictiveParsing

/-- The number that a number or a truth value counts as. -/
def Value.number? : Value → Option Int
  | .int number => some number
  | .bool truth => some (if truth then 1 else 0)
  | _ => none

mutual

def Value.less : Value → Value → Except Fault Bool
  | .text a, .text b => .ok !Text.le b a
  | .list as, .list bs => Value.lessAll as bs
  | .tuple as, .tuple bs => Value.lessAll as bs
  | a, b =>
      match a.number?, b.number? with
      | some m, some n => .ok (decide (m < n))
      | _, _ => .error (.notOrdered a.kind b.kind)

/-- Whether one list of values comes before another: their first values that do not count as
one decide, and a list comes before what it begins.
-/
def Value.lessAll : List Value → List Value → Except Fault Bool
  | [], bs => .ok !bs.isEmpty
  | _ :: _, [] => .ok false
  | a :: as, b :: bs => if a.key = b.key then Value.lessAll as bs else a.less b

end

namespace Value

/-- Puts a value before the first of a list that it comes before. -/
def insertInOrder (value : Value) : List Value → Except Fault (List Value)
  | [] => .ok [value]
  | item :: items => do
      if ← value.less item then .ok (value :: item :: items)
      else .ok (item :: (← insertInOrder value items))

/-- The values of a list in ascending order. Of two values of which none comes before the other,
the one that was first stays first.
-/
def sort (values : List Value) : Except Fault (List Value) :=
  values.foldlM (fun sorted value => insertInOrder value sorted) []

/-- Putting a value into a list adds it and nothing else, by induction on the list. -/
theorem perm_of_insertInOrder {value : Value} {items sorted : List Value}
    (h : insertInOrder value items = .ok sorted) : sorted.Perm (value :: items) := by
  induction items generalizing sorted with
  | nil =>
      cases h
      exact .refl _
  | cons item items ih =>
      rw [insertInOrder] at h
      cases hless : value.less item with
      | error fault => simp [hless, bind, Except.bind] at h
      | ok before =>
          cases before with
          | true =>
              simp only [hless, bind, Except.bind, if_true, Except.ok.injEq] at h
              exact h ▸ .refl _
          | false =>
              cases hrest : insertInOrder value items with
              | error fault => simp [hless, hrest, bind, Except.bind] at h
              | ok rest =>
                  simp only [hless, hrest, bind, Except.bind, Bool.false_eq_true, if_false,
                    Except.ok.injEq] at h
                  exact h ▸ ((ih hrest).cons item).trans (.swap value item items)

/-- Sorting keeps the values of a list, by induction on the list. -/
theorem perm_of_sort {values sorted : List Value} (h : sort values = .ok sorted)
    : sorted.Perm values := by
  suffices hs : ∀ start : List Value,
      values.foldlM (fun sorted value => insertInOrder value sorted) start = .ok sorted →
        sorted.Perm (values ++ start) by
    simpa using hs [] h
  clear h
  intro start h
  induction values generalizing start with
  | nil =>
      cases h
      exact .refl _
  | cons value values ih =>
      rw [List.foldlM_cons] at h
      cases hstart : insertInOrder value start with
      | error fault => simp [hstart, bind, Except.bind] at h
      | ok next =>
          rw [hstart] at h
          exact ((ih next h).trans ((perm_of_insertInOrder hstart).append_left values)).trans
            List.perm_middle

end Value

end PredictiveParsing
