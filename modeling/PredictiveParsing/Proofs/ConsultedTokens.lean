import PredictiveParsing.Proofs.AcceptedTrees
import PredictiveParsing.Proofs.SharedBeginnings

/-! The tokens for which the matcher is asked. A parse that is rejected at a token, or fails since
the matcher fails for it, is decided by the tokens up to that one: the tokens behind it are never
given to the matcher, and others in their place make no difference.
-/

namespace PredictiveParsing

variable {τ : Type}

/-- The next token, with its place, if there is one: a step asks the matcher for it. -/
def State.ask (s : State τ) : List (Nat × τ) :=
  (s.rest.take 1).map (s.index, ·)

/-- The matcher is asked for a token exactly if it is the next one, at the place where the state is.
-/
theorem State.mem_ask_iff {s : State τ} {ask : Nat × τ}
    : ask ∈ s.ask ↔ s.index = ask.1 ∧ s.rest.head? = some ask.2 := by
  obtain ⟨place, token⟩ := ask
  cases left : s.rest with
  | nil => simp [ask, left]
  | cons first rest =>
      simp only [ask, left, List.take_succ_cons, List.take_zero, List.map_cons, List.map_nil,
        List.mem_singleton, Prod.mk.injEq, List.head?_cons, Option.some.injEq]
      exact and_congr eq_comm eq_comm

namespace Parser

variable {p : Parser τ} {s t : State τ}

/-- The tokens for which the matcher is asked in at most `fuel` steps, one after another and each
with its place.
-/
def asks (p : Parser τ) : Nat → State τ → List (Nat × τ)
  | 0, _ => []
  | fuel + 1, s =>
      match p.step s with
      | .halt _ _ => s.ask
      | .next t => s.ask ++ p.asks fuel t

/-- The matcher is asked for the next tokens of the states that a run reaches. -/
theorem exists_reaches_of_mem_asks {fuel : Nat} {ask : Nat × τ} (member : ask ∈ p.asks fuel s)
    : ∃ t, p.Reaches s t ∧ ask ∈ t.ask := by
  induction fuel generalizing s with
  | zero => cases member
  | succ fuel ih =>
      rw [asks] at member
      split at member
      · exact ⟨s, .refl, member⟩
      · rename_i t taken
        rcases List.mem_append.mp member with here | later
        · exact ⟨s, .refl, here⟩
        · obtain ⟨u, reaches, found⟩ := ih later
          exact ⟨u, .head (move_of_step taken) reaches, found⟩

/-- What is asked in a state that a run reaches is asked in the run, by induction on the steps to
that state.
-/
theorem exists_mem_asks_of_reaches (reaches : p.Reaches s t) {ask : Nat × τ} (here : ask ∈ t.ask)
    : ∃ fuel, ask ∈ p.asks fuel s := by
  induction reaches using Relation.ReflTransGen.head_induction_on with
  | refl =>
      refine ⟨1, ?_⟩
      rw [asks]
      split
      · exact here
      · exact List.mem_append_left _ here
  | head move _ ih =>
      obtain ⟨fuel, later⟩ := ih
      refine ⟨fuel + 1, ?_⟩
      rw [asks, move.step_eq]
      exact List.mem_append_right _ later

-----------------------------------------------------------------------------------------
-- A run has read no more than where it halts
-----------------------------------------------------------------------------------------

/-- The place in the input never goes back, since no move sets it back. -/
theorem Reaches.index_le (reaches : p.Reaches s t) : s.index ≤ t.index := by
  have keeps (u v : State τ) (before : s.index ≤ u.index) (move : p.Move u v)
      : s.index ≤ v.index := by
    cases move with
    | shift => exact Nat.le_succ_of_le before
    | erase => exact before
    | expand => exact before
  exact reaches.invariant keeps (Nat.le_refl _)

/-- A state in which the step halts is the last one of its run. -/
theorem reaches_of_halt {u : State τ} (first : p.Reaches s t) (second : p.Reaches s u)
    {outcome : Outcome τ} {calls : Nat} (halt : p.step u = .halt outcome calls)
    : p.Reaches t u := by
  have unique : Relator.RightUnique p.Move := by
    intro a b c left right
    exact Step.next.inj (left.step_eq.symm.trans right.step_eq)
  rcases Relation.ReflTransGen.total_of_right_unique unique first second with before | behind
  · exact before
  · rcases Relation.ReflTransGen.cases_head behind with rfl | ⟨v, move, _⟩
    · exact .refl
    · cases halt.symm.trans move.step_eq

/-- Only tokens up to a place are ever given to the matcher, each at its own place. -/
def AsksUpTo (p : Parser τ) (tokens : List τ) (i : Nat) : Prop :=
  ∀ fuel,
    ∀ ask ∈ p.asks fuel (.initial p.grammar.startSymbol tokens),
      ask.1 ≤ i ∧ tokens[ask.1]? = some ask.2

/-- The matcher is never asked for a token behind the place where a parse halts. -/
theorem asksUpTo_of_halt {tokens : List τ} {outcome : Outcome τ} {calls : Nat}
    (reaches : p.Reaches (.initial p.grammar.startSymbol tokens) s)
    (halt : p.step s = .halt outcome calls)
    : p.AsksUpTo tokens s.index := by
  intro fuel ask member
  obtain ⟨t, earlier, here⟩ := exists_reaches_of_mem_asks member
  obtain ⟨place, next⟩ := State.mem_ask_iff.mp here
  have input := (Building.of_reaches p.builds_any earlier).drop_index.2
  rw [← place]
  refine ⟨(reaches_of_halt earlier reaches halt).index_le, ?_⟩
  rw [← List.head?_drop, ← input, next]

-----------------------------------------------------------------------------------------
-- The matcher fails for a token
-----------------------------------------------------------------------------------------

/-- A parse ends with the fault with which the matcher fails for the token at a place. -/
structure FailsAt (p : Parser τ) (tokens : List τ) (i : Nat) (fault : Fault) (calls : Nat)
    : Prop where
  fails
    : ∃ token,
        p.matcher token = .error fault
        ∧ ∃ fuel, (i, token) ∈ p.asks fuel (.initial p.grammar.startSymbol tokens)
  returned : p.Returns tokens ⟨.failed fault, calls⟩

/-- A parse fails at a place exactly if it reaches a state there for whose next token the matcher
fails.
-/
theorem failsAt_iff {tokens : List τ} {i : Nat} {fault : Fault} {calls : Nat}
    : p.FailsAt tokens i fault calls
      ↔ ∃ s,
          p.Reaches (.initial p.grammar.startSymbol tokens) s
          ∧ s.index = i
          ∧ p.lookahead s.rest = .error fault
          ∧ calls = s.asked.calls := by
  constructor
  · rintro ⟨⟨token, failed, fuel, member⟩, returned⟩
    obtain ⟨s, reaches, here⟩ := exists_reaches_of_mem_asks member
    obtain ⟨place, next⟩ := State.mem_ask_iff.mp here
    obtain ⟨rest, left⟩ := List.head?_eq_some_iff.mp next
    have seen : p.lookahead s.rest = .error fault := by rw [left]; exact failed
    have ends := (Ends.of_halt (step_unmatched seen)).of_reaches reaches
    exact ⟨s, reaches, place, seen, congrArg Finished.calls (Ends.unique returned ends)⟩
  · rintro ⟨s, reaches, place, seen, rfl⟩
    refine ⟨?_, (Ends.of_halt (step_unmatched seen)).of_reaches reaches⟩
    cases left : s.rest with
    | nil => rw [left] at seen; cases seen
    | cons token rest =>
        rw [left] at seen
        have here : (i, token) ∈ s.ask := State.mem_ask_iff.mpr ⟨place, by simp [left]⟩
        exact ⟨token, seen, exists_mem_asks_of_reaches reaches here⟩

-----------------------------------------------------------------------------------------
-- Tokens with a common beginning
-----------------------------------------------------------------------------------------

/-- Where a run on tokens has come to the last one of a common beginning, the run on others with
that beginning comes too.
-/
theorem Reaches.of_shared {x y : List τ} {i : Nat} (shared : y.take (i + 1) = x.take (i + 1))
    (reaches : p.Reaches (.initial p.grammar.startSymbol x) s) (place : s.index = i)
    : ∃ t,
        p.Reaches (.initial p.grammar.startSymbol y) t
        ∧ Abreast s t
        ∧ t.rest = y.drop i
        ∧ t.rest.head?.map p.matcher = s.rest.head?.map p.matcher := by
  have left : s.rest = x.drop i := place ▸ (Building.of_reaches p.builds_any reaches).drop_index.2
  have before : y.take i = x.take i := by
    have shorter := congrArg (List.take i) shared
    simpa [List.take_take] using shorter
  have next : (y.drop i).head?.map p.matcher = s.rest.head?.map p.matcher := by
    have here := congrArg (fun tokens => tokens[i]?) shared
    simp only [List.getElem?_take_of_succ] at here
    rw [left, List.head?_drop, List.head?_drop, here]
  have input : x = x.take i ++ s.rest := by rw [left, List.take_append_drop]
  have same : List.Forall₂ (fun token other => p.matcher other = p.matcher token)
      (x.take i) (y.take i) := by
    rw [before]
    exact List.forall₂_same.mpr fun _ _ => rfl
  obtain ⟨t, reaches', abreast, rest⟩ := reaches.alike (q := p) rfl input
    (u := .initial p.grammar.startSymbol y) ⟨rfl, rfl, rfl⟩ (y.take_append_drop i).symm same next
  exact ⟨t, reaches', abreast, rest, rest ▸ next⟩

/-- A parse that is rejected at a token, or fails since the matcher fails for it, is decided by the
tokens up to that one. On other tokens that begin with these it is rejected at the same place and
for the same expected symbol, or fails with the same fault, and the matcher is asked as often. In
neither parse is it asked for a token behind that place.
-/
theorem decided_by_beginning (p : Parser τ) {x y : List τ} {i : Nat} (inside : i < x.length)
    (shared : y.take (i + 1) = x.take (i + 1))
    : (∀ index expected calls,
        p.Returns x ⟨.rejected index expected (x.drop i), calls⟩
        → p.Returns y ⟨.rejected index expected (y.drop i), calls⟩
          ∧ p.AsksUpTo x i
          ∧ p.AsksUpTo y i)
      ∧ ∀ fault calls,
          p.FailsAt x i fault calls
          → p.FailsAt y i fault calls ∧ p.AsksUpTo x i ∧ p.AsksUpTo y i := by
  constructor
  · intro index expected calls rejected
    obtain ⟨s, reaches, halt⟩ := Ends.exists_halt rejected
    obtain ⟨halts, rfl⟩ : p.Halts s _ ∧ calls = s.asked.calls := halts_of_step halt
    have remaining := (Building.of_reaches p.builds_any reaches).drop_index
    generalize suffix : x.drop i = rest at halts
    cases halts with
    | @reject _ below focus shown stack refused seen wording =>
        have place : s.index = i := by
          have lengths := congrArg List.length (suffix.trans remaining.2)
          simp only [List.length_drop] at lengths
          omega
        obtain ⟨t, reaches', abreast, rest, next⟩ := reaches.of_shared shared place
        have halt' := step_reject (abreast.stack.trans stack) ((lookahead_alike next).trans seen)
          (refused.alike rfl next) wording
        have ends := (Ends.of_halt halt').of_reaches reaches'
        rw [abreast.index, rest, (abreast.asked next).calls] at ends
        refine ⟨ends, place ▸ asksUpTo_of_halt reaches halt, ?_⟩
        exact abreast.index.trans place ▸ asksUpTo_of_halt reaches' halt'
  · intro fault calls failed
    obtain ⟨s, reaches, place, seen, called⟩ := failsAt_iff.mp failed
    obtain ⟨t, reaches', abreast, _, next⟩ := reaches.of_shared shared place
    have place' : t.index = i := abreast.index.trans place
    have seen' : p.lookahead t.rest = .error fault := (lookahead_alike next).trans seen
    have called' : calls = t.asked.calls := called.trans (abreast.asked next).calls.symm
    refine ⟨failsAt_iff.mpr ⟨t, reaches', place', seen', called'⟩, ?_, ?_⟩
    · exact place ▸ asksUpTo_of_halt reaches (step_unmatched seen)
    · exact place' ▸ asksUpTo_of_halt reaches' (step_unmatched seen')

theorem decided_by_beginning_brackets
    : let p : Parser Value := ⟨.brackets, Grammar.brackets.ownTable, Matcher.bySort⟩
      let opening : Value := .token (.text (.ofString "(")) (.text (.ofString "("))
      let closing : Value := .token (.text (.ofString ")")) (.text (.ofString ")"))
      let unsorted : Value := .text (.ofString "x")
      let fault : Fault := .missingPart .text (.ofString "kind")
      p.Returns [closing, opening] ⟨.rejected 0 .endMark [closing, opening], 2⟩
      ∧ p.Returns [closing, unsorted] ⟨.rejected 0 .endMark [closing, unsorted], 2⟩
      ∧ p.AsksUpTo [closing, unsorted] 0
      ∧ p.FailsAt [opening, unsorted] 1 fault 3
      ∧ p.FailsAt [opening, unsorted, opening] 1 fault 3
      ∧ p.AsksUpTo [opening, unsorted, opening] 1 := by
  intro p opening closing unsorted fault
  have rejected : p.Returns [closing, opening] ⟨.rejected 0 .endMark [closing, opening], 2⟩ :=
    ⟨2, rfl⟩
  have failed : p.FailsAt [opening, unsorted] 1 fault 3 :=
    ⟨⟨unsorted, rfl, 3, by decide⟩, 3, rfl⟩
  have ⟨rejects, _⟩ := p.decided_by_beginning (x := [closing, opening])
    (y := [closing, unsorted]) (i := 0) (by simp) rfl
  have ⟨_, fails⟩ := p.decided_by_beginning (x := [opening, unsorted])
    (y := [opening, unsorted, opening]) (i := 1) (by simp) rfl
  have ⟨rejected', _, upTo⟩ := rejects _ _ _ rejected
  have ⟨failed', _, upTo'⟩ := fails _ _ failed
  exact ⟨rejected, rejected', upTo, failed, failed', upTo'⟩

end Parser

end PredictiveParsing
