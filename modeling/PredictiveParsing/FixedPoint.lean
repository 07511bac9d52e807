import PredictiveParsing.Text

/-! Repeating a pass until it changes nothing. -/

namespace PredictiveParsing

/-- A state that a further pass leaves as it is, and the number of passes that it took to find
it, the last one included.
-/
structure Settled (σ : Type) where
  state : σ
  passes : Nat

/-- Repeats a pass until the state stays the same, but at most `fuel` times. -/
def settle? {σ : Type} (same : σ → σ → Bool) (pass : σ → σ) : Nat → σ → Option (Settled σ)
  | 0, _ => none
  | fuel + 1, s =>
      if same (pass s) s then some ⟨pass s, 1⟩
      else (settle? same pass fuel (pass s)).map fun r => { r with passes := r.passes + 1 }

/-- Repeats a pass that is known to settle within a number of passes. -/
def settle {σ : Type} (same : σ → σ → Bool) (pass : σ → σ) (bound : Nat) (s : σ)
    : Settled σ :=
  (settle? same pass bound s).getD ⟨s, 0⟩

section Lemmas

variable {σ : Type} {same : σ → σ → Bool} {pass : σ → σ}

/-- At least one pass is made, by cases on the first. -/
theorem settle?_passes_pos {fuel : Nat} {s : σ} {r : Settled σ}
    (h : settle? same pass fuel s = some r)
    : 1 ≤ r.passes := by
  cases fuel with
  | zero => simp [settle?] at h
  | succ fuel =>
      rw [settle?] at h
      split at h
      · cases h
        exact Nat.le_refl 1
      · obtain ⟨r', _, rfl⟩ := Option.map_eq_some_iff.mp h
        simp

/-- Allowing more passes does not change what is found, by induction on those allowed. -/
theorem settle?_mono {fuel more : Nat} {s : σ} {r : Settled σ}
    (h : settle? same pass fuel s = some r) (hm : fuel ≤ more)
    : settle? same pass more s = some r := by
  induction fuel generalizing s r more with
  | zero => simp [settle?] at h
  | succ fuel ih =>
      obtain ⟨more, rfl⟩ : ∃ m, more = m + 1 := ⟨more - 1, by omega⟩
      rw [settle?] at h ⊢
      split at h
      · rename_i hs
        rw [if_pos hs, h]
      · rename_i hs
        obtain ⟨r', hr', rfl⟩ := Option.map_eq_some_iff.mp h
        rw [if_neg hs, ih hr' (by omega)]
        rfl

end Lemmas

end PredictiveParsing
