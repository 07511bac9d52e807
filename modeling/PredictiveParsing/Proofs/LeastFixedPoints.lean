import PredictiveParsing.Proofs.CheckedSets
import PredictiveParsing.Proofs.WorkingCopies

/-! What repeated passes come to from any start, in whatever order the rules stand: the least state
above the start that is closed under all rules. There is at most one more pass than values are
added, and the start itself is not changed.
-/

namespace PredictiveParsing

/-- Passes on a copy of a start, none of which fails, settle as given. The states that are kept
before stay as they are, the copy is the least closed state above the start, and the number of
passes that is reported is at least 1 and at most one more than the number of added values.
-/
structure Closes {σ : Type} [LE σ] (label : String) (same : σ → σ → Bool)
    (pass : σ → Except Fault σ) (size : σ → Nat) (closed : σ → Prop) (start : σ) (r : Settled σ)
    : Prop where
  ends
    : ∃ enough,
        ∀ fuel ≥ enough,
          ∀ (store : Store σ) (place : Nat) (events : List Event),
            store[place]? = some start
            → ∃ copies,
                (Journal.settleCopy label same pass fuel store place).run.run events
                  = (.ok (some (store ++ r.state :: copies, store.length)),
                    events ++ [.settled (.ofString label) r.passes])
  least : IsLeast {s | start ≤ s ∧ closed s} r.state
  once : 1 ≤ r.passes
  few : r.passes ≤ 1 + (size r.state - size start)

section Passes

variable {σ : Type} [Preorder σ] {label : String} {same : σ → σ → Bool}
  {checked : σ → Except Fault σ} {pass : σ → σ} {size : σ → Nat} {closed : σ → Prop}

/-- What a single pass has to be like: it does not fail where an invariant holds, it only adds what
a closed state has to have, it adds to the size unless it changes nothing, and then the state is
closed.
-/
structure ClosingPass (inv : σ → Prop) (same : σ → σ → Bool) (checked : σ → Except Fault σ)
    (pass : σ → σ) (size : σ → Nat) (closed : σ → Prop) : Prop where
  agree : ∀ s, inv s → checked s = .ok (pass s)
  keeps : ∀ s, inv s → inv (pass s)
  grows : ∀ s, s ≤ pass s
  within : ∀ s t, closed t → s ≤ t → pass s ≤ t
  closes : ∀ s, same (pass s) s = true → closed (pass s)
  enlarges : ∀ s, inv s → size s ≤ size (pass s)
  adds : ∀ s, inv s → same (pass s) s = false → size s < size (pass s)

/-- Where a single pass is like this, the state in which the passes settle is the least closed one
above the start. Every pass but the last adds to the size, which bounds their number.
-/
theorem ClosingPass.closes_of_settles {inv : σ → Prop}
    (closing : ClosingPass inv same checked pass size closed) (label : String) {start : σ}
    (holds : inv start) {fuel : Nat} {r : Settled σ}
    (found : settle? same pass fuel start = some r)
    : Closes label same checked size closed start r where
  ends := by
    refine ⟨fuel, fun more large store place events held => ?_⟩
    have found' := settle?_mono found large
    exact Journal.run_settleCopy label inv closing.agree closing.keeps holds found' held events
  least := settle?_isLeast closing.grows closing.within closing.closes found
  once := settle?_passes_pos found
  few := by
    have counted :=
      settle?_passes_le inv size closing.keeps closing.enlarges closing.adds holds found
    omega

end Passes

namespace Grammar

/-- The passes for the nonterminals that vanish are like this, with any set to begin with. -/
theorem closing_nullable (g : Grammar)
    : ClosingPass (fun _ => True) ValueSet.same
        (fun null => g.rules.foldlM checkedNullableStep null) g.nullablePass ValueSet.size
        g.NullableClosed where
  agree null _ := g.checkedNullablePass_eq null
  keeps _ _ := trivial
  grows null := le_nullablePass g null
  within _ _ := nullablePass_le
  closes _ unchanged := nullableClosed_of_settled (ValueSet.same_iff_le.mp unchanged).1
  enlarges null _ := ValueSet.size_le_of_le (le_nullablePass g null)
  adds null _ := ValueSet.size_lt_of_changed (le_nullablePass g null)

/-- The passes for the first sets are like this, where every nonterminal has an entry. -/
theorem closing_first (g : Grammar)
    : ClosingPass g.HasEntries SetMap.same (fun first => g.rules.foldlM checkedFirstStep first)
        g.firstPass SetMap.total g.FirstClosed where
  agree _ entries := checkedFirstPass_eq entries
  keeps _ entries := entries.of_keys (keys_firstPass entries)
  grows first := g.le_firstPass first
  within _ _ := firstPass_le_of_closed
  closes _ unchanged := firstClosed_of_settled (SetMap.le_of_same unchanged)
  enlarges first entries := SetMap.total_le_of_le (keys_firstPass entries) (g.le_firstPass first)
  adds first entries := SetMap.total_lt_of_changed (keys_firstPass entries) (g.le_firstPass first)

/-- The passes for the follow sets are like this, where every nonterminal has an entry. -/
theorem closing_follow (g : Grammar) (null : ValueSet)
    : ClosingPass g.HasEntries SetMap.same
        (fun follow => g.rules.foldlM (checkedFollowRule null) follow)
        (g.followPass null) SetMap.total (g.FollowClosed null) where
  agree _ entries := checkedFollowPass_eq null entries
  keeps _ entries := entries.of_keys (keys_followPass entries)
  grows follow := g.le_followPass null follow
  within _ _ := followPass_le_of_closed
  closes _ unchanged := followClosed_of_settled (SetMap.le_of_same unchanged)
  enlarges follow entries :=
    SetMap.total_le_of_le (keys_followPass entries) (g.le_followPass null follow)
  adds follow entries :=
    SetMap.total_lt_of_changed (keys_followPass entries) (g.le_followPass null follow)

/-- From every set of values, the passes for the nonterminals that vanish settle on the least set
above it that is closed under the rules. From every map with a set for each declared nonterminal, so
do the passes for first sets and, with any set of nonterminals that may vanish, those for follow
sets, and the map that they settle on has the same keys.
-/
theorem passes_close_from_any_start (g : Grammar)
    : (∀ start,
        Closes "_nullable_1" ValueSet.same (fun null => g.rules.foldlM checkedNullableStep null)
          ValueSet.size g.NullableClosed start (g.settleNullable start))
      ∧ ∀ start,
          g.HasEntries start
          → (Closes "_buildFirst1" SetMap.same (fun first => g.rules.foldlM checkedFirstStep first)
                SetMap.total g.FirstClosed start (g.settleFirst start)
              ∧ (g.settleFirst start).state.keys = start.keys)
            ∧ ∀ null,
                Closes "_buildFollow1" SetMap.same
                  (fun follow => g.rules.foldlM (checkedFollowRule null) follow)
                  SetMap.total (g.FollowClosed null) start (g.settleFollow null start)
                ∧ (g.settleFollow null start).state.keys = start.keys := by
  refine ⟨fun start => ?_, fun start entries => ⟨⟨?_, ?_⟩, fun null => ⟨?_, ?_⟩⟩⟩
  · exact g.closing_nullable.closes_of_settles _ trivial (g.settles_nullable start)
  · exact g.closing_first.closes_of_settles _ entries (g.settles_first entries)
  · exact keys_of_settles (fun _ => keys_firstPass) entries (g.settles_first entries)
  · exact (g.closing_follow null).closes_of_settles _ entries (g.settles_follow null entries)
  · exact keys_of_settles (fun _ => keys_followPass) entries (g.settles_follow null entries)

theorem passes_close_from_any_start_brackets
    : let g : Grammar := .brackets
      let x : Value := .term (.text (.ofString "x"))
      let opening : Value := .term (.text (.ofString "("))
      let start : SetMap := g.emptySets.addAll g.startSymbol.toValue (.singleton x)
      let pass (first : SetMap) : Except Fault SetMap := g.rules.foldlM checkedFirstStep first
      g.HasEntries start
      ∧ (∃ enough,
          ∀ fuel ≥ enough,
            ∃ copies,
              (Journal.settleCopy "_buildFirst1" SetMap.same pass fuel [start] 0).run.run []
                = (.ok (some (start :: (g.settleFirst start).state :: copies, 1)),
                  [.settled (.ofString "_buildFirst1") 2]))
      ∧ IsLeast {first | start ≤ first ∧ g.FirstClosed first} (g.settleFirst start).state
      ∧ ((g.settleFirst start).state.setOf g.startSymbol.toValue).items = [x, opening] := by
  intro g x opening start pass
  have entries : g.HasEntries start := by
    unfold HasEntries
    decide
  obtain ⟨⟨closes, _⟩, _⟩ := g.passes_close_from_any_start.2 start entries
  obtain ⟨enough, ends⟩ := closes.ends
  have passes : (g.settleFirst start).passes = 2 := by decide
  refine ⟨entries, ⟨enough, fun fuel large => ?_⟩, closes.least, by decide⟩
  obtain ⟨copies, run⟩ := ends fuel large [start] 0 [] rfl
  rw [passes] at run
  exact ⟨copies, run⟩

end Grammar

end PredictiveParsing
