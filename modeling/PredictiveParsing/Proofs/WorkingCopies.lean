import PredictiveParsing.Journal
import PredictiveParsing.Proofs.CheckedLookUps

/-! Passes that change a state where it is kept. Only a copy of the start is changed, and a further
copy tells whether the last pass has changed anything. So the states that were kept before stay as
they are, and the passes settle as they do on a state that is handed on from pass to pass.
-/

namespace PredictiveParsing

/-- States at places, which are counted from 0. -/
abbrev Store (σ : Type) := List σ

namespace Store

variable {σ : Type}

/-- Puts a copy of the state at a place behind all other states. -/
def copy (store : Store σ) (place : Nat) : Store σ :=
  store ++ store[place]?.toList

/-- Changes the state at a place by a pass that can fail. -/
def change (pass : σ → Except Fault σ) (store : Store σ) (place : Nat)
    : Except Fault (Store σ) :=
  match store[place]? with
  | some s => do .ok (store.set place (← pass s))
  | none => .ok store

def sameAt (same : σ → σ → Bool) (store : Store σ) (place other : Nat) : Bool :=
  match store[place]?, store[other]? with
  | some s, some t => same s t
  | _, _ => false

/-- Changes the state at a place by passes until it is the same as its copy from before the last
pass, but at most `fuel` times.
-/
def settleAt? (same : σ → σ → Bool) (pass : σ → Except Fault σ) (place : Nat)
    : Nat → Store σ → Except Fault (Option (Settled (Store σ)))
  | 0, _ => .ok none
  | fuel + 1, store => do
      let changed ← (store.copy place).change pass place
      if changed.sameAt same place store.length then
        .ok (some ⟨changed, 1⟩)
      else
        .ok ((← settleAt? same pass place fuel changed).map fun r =>
          { r with passes := r.passes + 1 })

section Places

variable (front back : Store σ) (s t : σ)

theorem copy_middle : copy (front ++ s :: back) front.length = front ++ s :: (back ++ [s]) := by
  simp [copy]

/-- A change at a place leaves the states at other places as they are. -/
theorem change_middle {pass : σ → Except Fault σ} (passed : pass s = .ok t)
    : change pass (front ++ s :: back) front.length = .ok (front ++ t :: back) := by
  simp [change, passed, bind, Except.bind]

/-- A state is compared with its copy, which is the last one. -/
theorem sameAt_middle (same : σ → σ → Bool)
    : sameAt same (front ++ t :: (back ++ [s])) front.length (front ++ s :: back).length
      = same t s := by
  simp [sameAt]

end Places

/-- The state at a place settles as it does when it is handed on, and the states before that place
are not touched. By induction on the number of passes allowed: each pass leaves one copy behind.
-/
theorem settleAt?_eq (inv : σ → Prop) {same : σ → σ → Bool} {checked : σ → Except Fault σ}
    {pass : σ → σ} (agree : ∀ s, inv s → checked s = .ok (pass s))
    (keeps : ∀ s, inv s → inv (pass s)) {fuel : Nat} {s : σ} (start : inv s) {r : Settled σ}
    (found : settle? same pass fuel s = some r) (front back : Store σ)
    : ∃ copies,
        settleAt? same checked front.length fuel (front ++ s :: back)
          = .ok (some ⟨front ++ r.state :: copies, r.passes⟩) := by
  induction fuel generalizing s r back with
  | zero => simp [settle?] at found
  | succ fuel ih =>
      rw [settle?] at found
      rw [settleAt?, copy_middle, change_middle _ _ _ _ (agree s start)]
      simp only [bind, Except.bind, sameAt_middle]
      split at found
      · rename_i unchanged
        cases found
        exact ⟨back ++ [s], by rw [if_pos unchanged]⟩
      · rename_i changed
        obtain ⟨later, hlater, rfl⟩ := Option.map_eq_some_iff.mp found
        obtain ⟨copies, settled⟩ := ih (keeps s start) hlater (back ++ [s])
        exact ⟨copies, by rw [if_neg changed, settled]; rfl⟩

end Store

namespace Journal

open Text (ofString)

variable {σ : Type}

/-- Copies the state at a place, changes the copy by passes until it stays the same, and reports
how many passes that took. The store that comes out is given with the place of the copy.
-/
def settleCopy (label : String) (same : σ → σ → Bool) (pass : σ → Except Fault σ) (fuel : Nat)
    (store : Store σ) (place : Nat) : Journal (Option (Store σ × Nat)) := do
  let some r ← Store.settleAt? same pass store.length fuel (store.copy place) | return none
  report (.settled (ofString label) r.passes)
  return some (r.state, store.length)

/-- The copy settles behind the states that were there before, which stay as they are. -/
theorem run_settleCopy (label : String) (inv : σ → Prop) {same : σ → σ → Bool}
    {checked : σ → Except Fault σ} {pass : σ → σ}
    (agree : ∀ s, inv s → checked s = .ok (pass s)) (keeps : ∀ s, inv s → inv (pass s))
    {fuel : Nat} {s : σ} (start : inv s) {r : Settled σ}
    (found : settle? same pass fuel s = some r) {store : Store σ} {place : Nat}
    (held : store[place]? = some s) (events : List Event)
    : ∃ copies,
        (settleCopy label same checked fuel store place).run.run events
          = (.ok (some (store ++ r.state :: copies, store.length)),
            events ++ [.settled (ofString label) r.passes]) := by
  have copied : store.copy place = store ++ s :: [] := by rw [Store.copy, held]; rfl
  obtain ⟨copies, settled⟩ := Store.settleAt?_eq inv agree keeps start found store []
  refine ⟨copies, ?_⟩
  rw [settleCopy, copied, settled]
  rfl

end Journal

end PredictiveParsing
