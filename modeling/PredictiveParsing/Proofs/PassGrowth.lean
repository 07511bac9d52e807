import Mathlib.Order.Basic
import Mathlib.Order.Bounds.Defs
import PredictiveParsing.FixedPoint

/-! Passes that only add to a state. Bounded growth makes repeated passes settle, and a
settled state is one to which no single step of a pass adds anything.
-/

namespace PredictiveParsing

section Settling

variable {σ : Type} {same : σ → σ → Bool} {pass : σ → σ}

/-- A settled state comes out of a pass from a state that keeps every invariant of the
passes, by induction on the number of passes allowed.
-/
theorem settle?_invariant (inv : σ → Prop) (keeps : ∀ s, inv s → inv (pass s))
    {fuel : Nat} {s : σ} {r : Settled σ} (start : inv s) (found : settle? same pass fuel s = some r)
    : ∃ t, inv t ∧ r.state = pass t ∧ same (pass t) t = true := by
  induction fuel generalizing s r with
  | zero => simp [settle?] at found
  | succ fuel ih =>
      rw [settle?] at found
      split at found
      · rename_i unchanged
        cases found
        exact ⟨s, start, rfl, unchanged⟩
      · obtain ⟨later, hlater, rfl⟩ := Option.map_eq_some_iff.mp found
        obtain ⟨t, kept, reached, unchanged⟩ := ih (keeps s start) hlater
        exact ⟨t, kept, reached, unchanged⟩

/-- Passes that add to a bounded measure settle once more passes are allowed than there is
room for growth, by induction on the number of passes allowed.
-/
theorem settle?_of_growth (inv : σ → Prop) (size : σ → Nat) (bound : Nat)
    (keeps : ∀ s, inv s → inv (pass s)) (bounded : ∀ s, inv s → size s ≤ bound)
    (grows : ∀ s, inv s → same (pass s) s = false → size s < size (pass s))
    {fuel : Nat} {s : σ} (start : inv s) (enough : bound < size s + fuel)
    : ∃ r, settle? same pass fuel s = some r := by
  induction fuel generalizing s with
  | zero =>
      have := bounded s start
      omega
  | succ fuel ih =>
      rw [settle?]
      cases changed : same (pass s) s with
      | true => exact ⟨_, rfl⟩
      | false =>
          have more := grows s start changed
          obtain ⟨r, hr⟩ := ih (keeps s start) (by omega)
          exact ⟨_, by simp only [Bool.false_eq_true, if_false, hr, Option.map_some]; rfl⟩

/-- Passes that grow within a bound settle on the value of the total function. -/
theorem settle_of_growth (inv : σ → Prop) (size : σ → Nat) (bound : Nat)
    (keeps : ∀ s, inv s → inv (pass s)) (bounded : ∀ s, inv s → size s ≤ bound)
    (grows : ∀ s, inv s → same (pass s) s = false → size s < size (pass s))
    {fuel : Nat} {s : σ} (start : inv s) (enough : bound < size s + fuel)
    : settle? same pass fuel s = some (settle same pass fuel s) := by
  obtain ⟨r, hr⟩ := settle?_of_growth inv size bound keeps bounded grows start enough
  rw [settle, hr]
  rfl

/-- Every pass but the last one adds to the measure, so that there is at most one more pass than it
has grown by. By induction on the number of passes allowed.
-/
theorem settle?_passes_le (inv : σ → Prop) (size : σ → Nat) (keeps : ∀ s, inv s → inv (pass s))
    (grows : ∀ s, inv s → size s ≤ size (pass s))
    (adds : ∀ s, inv s → same (pass s) s = false → size s < size (pass s))
    {fuel : Nat} {s : σ} {r : Settled σ} (start : inv s) (found : settle? same pass fuel s = some r)
    : r.passes + size s ≤ 1 + size r.state := by
  induction fuel generalizing s r with
  | zero => simp [settle?] at found
  | succ fuel ih =>
      rw [settle?] at found
      split at found
      · cases found
        exact Nat.add_le_add_left (grows s start) 1
      · rename_i changed
        obtain ⟨later, hlater, rfl⟩ := Option.map_eq_some_iff.mp found
        have more := adds s start (by simpa using changed)
        have rest := ih (keeps s start) hlater
        change later.passes + 1 + size s ≤ 1 + size later.state
        omega

/-- Passes that only add what every closed state has to have, and that leave a closed state once
nothing changes, settle on the least closed state above the start.
-/
theorem settle?_isLeast [Preorder σ] {closed : σ → Prop} (grows : ∀ s, s ≤ pass s)
    (within : ∀ s t, closed t → s ≤ t → pass s ≤ t)
    (closes : ∀ s, same (pass s) s = true → closed (pass s))
    {fuel : Nat} {s : σ} {r : Settled σ} (found : settle? same pass fuel s = some r)
    : IsLeast {t | s ≤ t ∧ closed t} r.state := by
  constructor
  · obtain ⟨t, above, reached, unchanged⟩ :=
      settle?_invariant (fun t => s ≤ t) (fun t above => above.trans (grows t)) (le_refl s) found
    rw [reached]
    exact ⟨above.trans (grows t), closes t unchanged⟩
  · rintro other ⟨above, closed⟩
    have keeps (t : σ) (small : t ≤ other) : pass t ≤ other := within t other closed small
    obtain ⟨t, small, reached, _⟩ := settle?_invariant (fun t => t ≤ other) keeps above found
    rw [reached]
    exact within t other closed small

end Settling

section Steps

variable {σ ρ : Type} [Preorder σ] {step : σ → ρ → σ}

/-- Steps that only add give a pass that only adds, by induction on the rules. -/
theorem le_foldl (grow : ∀ s r, s ≤ step s r) (rules : List ρ) (s : σ)
    : s ≤ rules.foldl step s := by
  induction rules generalizing s with
  | nil => exact le_refl s
  | cons r rules ih => exact (grow s r).trans (ih (step s r))

/-- The step of every rule is taken at some state on the way, and its result is kept. -/
theorem exists_step_le_foldl (grow : ∀ s r, s ≤ step s r) {rules : List ρ} {r : ρ}
    (member : r ∈ rules) (s : σ)
    : ∃ t, s ≤ t ∧ step t r ≤ rules.foldl step s := by
  induction rules generalizing s with
  | nil => exact False.elim (List.not_mem_nil member)
  | cons first rules ih =>
      rcases List.mem_cons.mp member with rfl | later
      · exact ⟨s, le_refl s, le_foldl grow rules _⟩
      · obtain ⟨t, below, kept⟩ := ih later (step s first)
        exact ⟨t, (grow s first).trans below, kept⟩

omit [Preorder σ] in
/-- What every step keeps is kept by all of them, by induction on the rules. -/
theorem foldl_invariant (inv : σ → Prop) {rules : List ρ}
    (keeps : ∀ r ∈ rules, ∀ s, inv s → inv (step s r)) {s : σ} (start : inv s)
    : inv (rules.foldl step s) := by
  induction rules generalizing s with
  | nil => exact start
  | cons r rules ih =>
      exact ih (fun next later => keeps next (List.mem_cons_of_mem r later))
        (keeps r List.mem_cons_self s start)

end Steps

end PredictiveParsing
