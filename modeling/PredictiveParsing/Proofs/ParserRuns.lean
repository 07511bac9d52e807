import Mathlib.Logic.Relation
import PredictiveParsing.Parser

/-! Runs of the parser as steps one after another: what a step can do, the states that a run
reaches, and the state in which it halts.
-/

namespace PredictiveParsing

variable {τ : Type}

namespace State

/-- The state in which the matcher has been asked for the next token, if there is one. -/
def asked (s : State τ) : State τ :=
  { s with calls := s.calls + (s.rest.take 1).length }

@[simp] theorem asked_stack (s : State τ) : s.asked.stack = s.stack := rfl

@[simp] theorem asked_frames (s : State τ) : s.asked.frames = s.frames := rfl

@[simp] theorem asked_done (s : State τ) : s.asked.done = s.done := rfl

@[simp] theorem asked_index (s : State τ) : s.asked.index = s.index := rfl

@[simp] theorem asked_rest (s : State τ) : s.asked.rest = s.rest := rfl

theorem reject_ne_next {s t : State τ} {expected : Symbol} : s.reject expected ≠ .next t := by
  unfold reject
  split <;> simp

end State

namespace Parser

/-- What a step does that does not halt: it reads the terminal on top of the stack, erases the
nonterminal there by an empty rule, or replaces it by the body of another rule.
-/
inductive Move (p : Parser τ) (s : State τ) : State τ → Prop where
  | shift {name focus : Value} {below : List Symbol} {token : τ} {rest : List τ}
    (stack : s.stack = .term name :: below) (input : s.rest = token :: rest)
    (seen : p.matcher token = .ok focus) (matched : focus.key = (Value.term name).key)
    : Move p s ((s.asked.attach below (.leaf token)).advance rest)
  | erase {name focus : Value} {below : List Symbol} {r : Rule}
    (stack : s.stack = .nonterm name :: below) (seen : p.lookahead s.rest = .ok focus)
    (chosen : p.choose (.nonterm name) focus = .ok (some r)) (empty : r.body = [])
    : Move p s (s.asked.attach below (.node (.nonterm name) []))
  | expand {name focus : Value} {below : List Symbol} {r : Rule}
    (stack : s.stack = .nonterm name :: below) (seen : p.lookahead s.rest = .ok focus)
    (chosen : p.choose (.nonterm name) focus = .ok (some r)) (nonempty : r.body ≠ [])
    : Move p s (s.asked.expand below r)

/-- The step does what a move says. -/
theorem Move.step_eq {p : Parser τ} {s t : State τ} (move : p.Move s t) : p.step s = .next t := by
  cases move with
  | shift stack input seen matched =>
      simp [step, stepTerm, lookahead, stack, input, seen, matched, State.asked]
  | erase stack seen chosen empty =>
      simp [step, stepNonterm, stack, seen, chosen, Rule.isEmpty, empty, State.asked]
  | expand stack seen chosen nonempty =>
      simp [step, stepNonterm, stack, seen, chosen, Rule.isEmpty, nonempty, State.asked]

/-- A step by the cases of the lookahead and of the symbol on top of the stack. -/
theorem step_eq (p : Parser τ) (s : State τ)
    : p.step s
      = match p.lookahead s.rest with
        | .error fault => .halt (.failed fault) s.asked.calls
        | .ok focus =>
            match s.stack with
            | [] => .halt (.failed .noTree) s.asked.calls
            | .endMark :: _ => stepEnd s.asked
            | .term name :: below => stepTerm s.asked focus name below
            | .nonterm name :: below => p.stepNonterm s.asked focus name below :=
  rfl

/-- A step that does not halt is a move, by its cases. -/
theorem move_of_step {p : Parser τ} {s t : State τ} (h : p.step s = .next t) : p.Move s t := by
  rw [step_eq] at h
  split at h
  · cases h
  · rename_i focus seen
    split at h
    · cases h
    · simp only [stepEnd] at h
      split at h
      · split at h <;> cases h
      · exact absurd h State.reject_ne_next
    · rename_i name below stack
      simp only [stepTerm] at h
      split at h
      · exact absurd h State.reject_ne_next
      · rename_i token rest input
        split at h
        · rename_i matched
          cases h
          have input : s.rest = token :: rest := input
          rw [input] at seen
          exact .shift stack input seen matched
        · exact absurd h State.reject_ne_next
    · rename_i name below stack
      simp only [stepNonterm] at h
      split at h
      · cases h
      · exact absurd h State.reject_ne_next
      · rename_i r chosen
        split at h
        · rename_i empty
          cases h
          exact .erase stack seen chosen (List.isEmpty_iff.mp empty)
        · rename_i nonempty
          cases h
          exact .expand stack seen chosen (by simpa [Rule.isEmpty] using nonempty)

/-- The symbol on top of the stack is not what the next token calls for. -/
inductive Refuses (p : Parser τ) : Symbol → List τ → Prop where
  | leftover {token : τ} {rest : List τ} : Refuses p .endMark (token :: rest)
  | missing {name : Value} : Refuses p (.term name) []
  | mismatch {name focus : Value} {token : τ} {rest : List τ}
    (seen : p.matcher token = .ok focus) (differs : focus.key ≠ (Value.term name).key)
    : Refuses p (.term name) (token :: rest)
  | blank {name focus : Value} {rest : List τ} (seen : p.lookahead rest = .ok focus)
    (chosen : p.choose (.nonterm name) focus = .ok none)
    : Refuses p (.nonterm name) rest

inductive Halts (p : Parser τ) (s : State τ) : Outcome τ → Prop where
  | accept {below : List Symbol} {tree : Tree τ} {more : List (Tree τ)}
    (stack : s.stack = .endMark :: below) (input : s.rest = []) (done : s.done = tree :: more)
    : Halts p s (.accepted tree)
  | reject {expected : Symbol} {below : List Symbol} {focus : Value} {shown : Text}
    (stack : s.stack = expected :: below) (refused : p.Refuses expected s.rest)
    (seen : p.lookahead s.rest = .ok focus) (wording : expected.toValue.display = .ok shown)
    : Halts p s (.rejected s.index expected s.rest)
  | unwritable {expected : Symbol} {below : List Symbol} {fault : Fault}
    (stack : s.stack = expected :: below) (refused : p.Refuses expected s.rest)
    (wording : expected.toValue.display = .error fault)
    : Halts p s (.failed fault)
  | unmatched {fault : Fault} (seen : p.lookahead s.rest = .error fault)
    : Halts p s (.failed fault)
  | unchoosable {name focus : Value} {below : List Symbol} {fault : Fault}
    (stack : s.stack = .nonterm name :: below) (seen : p.lookahead s.rest = .ok focus)
    (chosen : p.choose (.nonterm name) focus = .error fault)
    : Halts p s (.failed fault)
  | emptyStack (stack : s.stack = []) : Halts p s (.failed .noTree)
  | noTree {below : List Symbol} (stack : s.stack = .endMark :: below) (input : s.rest = [])
    (done : s.done = [])
    : Halts p s (.failed .noTree)

theorem halts_of_reject {p : Parser τ} {s : State τ} {expected : Symbol}
    {below : List Symbol} {focus : Value} (stack : s.stack = expected :: below)
    (seen : p.lookahead s.rest = .ok focus) (refused : p.Refuses expected s.rest)
    {outcome : Outcome τ} {calls : Nat}
    (h : s.asked.reject expected = .halt outcome calls)
    : p.Halts s outcome ∧ calls = s.asked.calls := by
  unfold State.reject at h
  split at h
  · rename_i shown wording
    cases h
    exact ⟨.reject stack refused seen wording, rfl⟩
  · rename_i fault wording
    cases h
    exact ⟨.unwritable stack refused wording, rfl⟩

/-- A step that halts does so in one of these ways, with the call for the next token counted. -/
theorem halts_of_step {p : Parser τ} {s : State τ} {outcome : Outcome τ} {calls : Nat}
    (h : p.step s = .halt outcome calls)
    : p.Halts s outcome ∧ calls = s.asked.calls := by
  rw [step_eq] at h
  split at h
  · rename_i fault seen
    cases h
    exact ⟨.unmatched seen, rfl⟩
  · rename_i focus seen
    split at h
    · rename_i stack
      cases h
      exact ⟨.emptyStack stack, rfl⟩
    · rename_i below stack
      simp only [stepEnd, State.asked_rest, State.asked_done] at h
      split at h
      · rename_i input
        split at h
        · rename_i tree more done
          cases h
          exact ⟨.accept stack input done, rfl⟩
        · rename_i done
          cases h
          exact ⟨.noTree stack input done, rfl⟩
      · rename_i token rest input
        exact halts_of_reject stack seen (input ▸ .leftover) h
    · rename_i name below stack
      simp only [stepTerm, State.asked_rest] at h
      split at h
      · rename_i input
        exact halts_of_reject stack seen (input ▸ .missing) h
      · rename_i token rest input
        split at h
        · cases h
        · rename_i differs
          have looked : p.matcher token = .ok focus := by rw [input] at seen; exact seen
          exact halts_of_reject stack seen (input ▸ .mismatch looked differs) h
    · rename_i name below stack
      simp only [stepNonterm] at h
      split at h
      · rename_i fault chosen
        cases h
        exact ⟨.unchoosable stack seen chosen, rfl⟩
      · rename_i chosen
        exact halts_of_reject stack seen (.blank seen chosen) h
      · split at h <;> cases h

theorem step_unmatched {p : Parser τ} {s : State τ} {fault : Fault}
    (seen : p.lookahead s.rest = .error fault)
    : p.step s = .halt (.failed fault) s.asked.calls := by
  rw [step_eq, seen]

theorem step_unchoosable {p : Parser τ} {s : State τ} {name focus : Value}
    {below : List Symbol} {fault : Fault} (stack : s.stack = .nonterm name :: below)
    (seen : p.lookahead s.rest = .ok focus)
    (chosen : p.choose (.nonterm name) focus = .error fault)
    : p.step s = .halt (.failed fault) s.asked.calls := by
  simp [step_eq, seen, stack, stepNonterm, chosen]

/-- A step rejects what the next token does not call for, if the expected symbol can be written. -/
theorem step_reject {p : Parser τ} {s : State τ} {expected : Symbol} {below : List Symbol}
    {focus : Value} {shown : Text} (stack : s.stack = expected :: below)
    (seen : p.lookahead s.rest = .ok focus) (refused : p.Refuses expected s.rest)
    (wording : expected.toValue.display = .ok shown)
    : p.step s = .halt (.rejected s.index expected s.rest) s.asked.calls := by
  have rejected
      : s.asked.reject expected = .halt (.rejected s.index expected s.rest) s.asked.calls := by
    simp [State.reject, wording]
  rw [step_eq, seen, stack, ← rejected]
  generalize input : s.rest = rest at refused seen
  cases refused with
  | leftover => simp [stepEnd, input]
  | missing => simp [stepTerm, input]
  | mismatch matched differs =>
      cases matched.symm.trans seen
      simp [stepTerm, input, differs]
  | blank matched chosen =>
      cases matched.symm.trans seen
      simp [stepNonterm, chosen]

theorem step_accept (p : Parser τ) {s : State τ} {below : List Symbol} {tree : Tree τ}
    {more : List (Tree τ)} (stack : s.stack = .endMark :: below) (input : s.rest = [])
    (done : s.done = tree :: more)
    : p.step s = .halt (.accepted tree) s.asked.calls := by
  simp [step_eq, lookahead, stepEnd, stack, input, done]

theorem step_noTree (p : Parser τ) {s : State τ} {below : List Symbol}
    (stack : s.stack = .endMark :: below) (input : s.rest = []) (done : s.done = [])
    : p.step s = .halt (.failed .noTree) s.asked.calls := by
  simp [step_eq, lookahead, stepEnd, stack, input, done]

-----------------------------------------------------------------------------------------
-- Steps one after another
-----------------------------------------------------------------------------------------

def Reaches (p : Parser τ) : State τ → State τ → Prop :=
  Relation.ReflTransGen p.Move

def Ends (p : Parser τ) (s : State τ) (result : Finished τ) : Prop :=
  ∃ fuel, p.run fuel s = some result

theorem Reaches.single {p : Parser τ} {s t : State τ} (move : p.Move s t) : p.Reaches s t :=
  Relation.ReflTransGen.single move

/-- What every move keeps holds in all states that are reached, by induction on the steps. -/
theorem Reaches.invariant {p : Parser τ} {inv : State τ → Prop}
    (keeps : ∀ s t, inv s → p.Move s t → inv t) {s t : State τ} (reaches : p.Reaches s t)
    (start : inv s)
    : inv t := by
  induction reaches with
  | refl => exact start
  | tail _ move ih => exact keeps _ _ ih move

theorem Ends.of_halt {p : Parser τ} {s : State τ} {outcome : Outcome τ} {calls : Nat}
    (h : p.step s = .halt outcome calls)
    : p.Ends s ⟨outcome, calls⟩ :=
  ⟨1, by simp [run, h]⟩

theorem Ends.of_move {p : Parser τ} {s t : State τ} (move : p.Move s t) {result : Finished τ}
    (ends : p.Ends t result)
    : p.Ends s result := by
  obtain ⟨fuel, h⟩ := ends
  exact ⟨fuel + 1, by simp [run, move.step_eq, h]⟩

/-- A run ends as the run from any state ends that it reaches, by induction on the steps. -/
theorem Ends.of_reaches {p : Parser τ} {s t : State τ} (reaches : p.Reaches s t)
    {result : Finished τ} (ends : p.Ends t result)
    : p.Ends s result := by
  induction reaches using Relation.ReflTransGen.head_induction_on with
  | refl => exact ends
  | head move _ ih => exact ih.of_move move

/-- A run ends in one way only, by induction on the number of steps. -/
theorem Ends.unique {p : Parser τ} {s : State τ} {a b : Finished τ} (first : p.Ends s a)
    (second : p.Ends s b)
    : a = b := by
  obtain ⟨n, hn⟩ := first
  obtain ⟨m, hm⟩ := second
  induction n generalizing s m with
  | zero => cases hn
  | succ n ih =>
      cases m with
      | zero => cases hm
      | succ m =>
          rw [run] at hn hm
          cases taken : p.step s with
          | halt outcome calls =>
              simp only [taken] at hn hm
              exact Option.some.inj (hn.symm.trans hm)
          | next t =>
              simp only [taken] at hn hm
              exact ih hn m hm

/-- Behind a move, the run goes on with fewer steps. -/
theorem run_of_move {p : Parser τ} {s t : State τ} (move : p.Move s t) {fuel : Nat}
    {result : Finished τ} (h : p.run fuel s = some result)
    : ∃ less < fuel, p.run less t = some result := by
  cases fuel with
  | zero => cases h
  | succ fuel =>
      rw [run, move.step_eq] at h
      exact ⟨fuel, Nat.lt_succ_self fuel, h⟩

/-- A run that ends needs no more steps from a state that it reaches, by induction on the steps. -/
theorem run_of_reaches {p : Parser τ} {s t : State τ} (reaches : p.Reaches s t) {fuel : Nat}
    {result : Finished τ} (h : p.run fuel s = some result)
    : ∃ less ≤ fuel, p.run less t = some result := by
  induction reaches with
  | refl => exact ⟨fuel, Nat.le_refl fuel, h⟩
  | tail _ move ih =>
      obtain ⟨less, small, later⟩ := ih
      obtain ⟨fewer, smaller, last⟩ := run_of_move move later
      exact ⟨fewer, Nat.le_of_lt (Nat.lt_of_lt_of_le smaller small), last⟩

/-- A run never ends if it comes back again and again to states of one kind, by induction on the
number of steps that it would take.
-/
theorem not_ends_of_recurrence {p : Parser τ} (kind : State τ → Prop)
    (again : ∀ s, kind s → ∃ t, Relation.TransGen p.Move s t ∧ kind t) {s : State τ}
    (here : kind s) (result : Finished τ)
    : ¬ p.Ends s result := by
  rintro ⟨fuel, h⟩
  induction fuel using Nat.strongRecOn generalizing s with
  | ind fuel ih =>
      obtain ⟨t, path, there⟩ := again s here
      obtain ⟨u, move, reaches⟩ := Relation.TransGen.head'_iff.mp path
      obtain ⟨less, smaller, later⟩ := run_of_move move h
      obtain ⟨fewer, small, last⟩ := run_of_reaches reaches later
      exact ih fewer (Nat.lt_of_le_of_lt small smaller) there last

/-- The run from a state ends, or reaches a state with fewer tokens to read, or one with the same
tokens and fewer symbols on the stack.
-/
def Progresses (p : Parser τ) (s : State τ) : Prop :=
  (∃ result, p.Ends s result)
  ∨ ∃ t,
      p.Reaches s t
      ∧ (t.rest.length < s.rest.length
        ∨ t.rest = s.rest ∧ t.stack.length < s.stack.length)

/-- If every state progresses, every run ends, by induction on the tokens to read and, among
states with the same number of them, on the height of the stack.
-/
theorem exists_ends_of_progresses {p : Parser τ} (progresses : ∀ s, p.Progresses s)
    (s : State τ)
    : ∃ result, p.Ends s result := by
  rcases progresses s with ends | ⟨t, reaches, smaller⟩
  · exact ends
  · obtain ⟨result, ends⟩ := exists_ends_of_progresses progresses t
    exact ⟨result, ends.of_reaches reaches⟩
termination_by (s.rest.length, s.stack.length)
decreasing_by
  rcases smaller with shorter | ⟨same, lower⟩
  · exact Prod.Lex.left _ _ shorter
  · rw [same]
    exact Prod.Lex.right _ lower

/-- A run that ends reaches a state whose step halts, by induction on the number of steps. -/
theorem Ends.exists_halt {p : Parser τ} {s : State τ} {result : Finished τ}
    (ends : p.Ends s result)
    : ∃ t, p.Reaches s t ∧ p.step t = .halt result.outcome result.calls := by
  obtain ⟨fuel, h⟩ := ends
  induction fuel generalizing s with
  | zero => cases h
  | succ fuel ih =>
      rw [run] at h
      split at h
      · rename_i outcome calls halt
        cases h
        exact ⟨s, .refl, halt⟩
      · rename_i next taken
        obtain ⟨t, reaches, halt⟩ := ih h
        exact ⟨t, .head (move_of_step taken) reaches, halt⟩

/-- A run that ends reaches a state that halts, with the calls up to there. -/
theorem Ends.exists_halts {p : Parser τ} {s : State τ} {result : Finished τ}
    (ends : p.Ends s result)
    : ∃ t, p.Reaches s t ∧ p.Halts t result.outcome ∧ result.calls = t.asked.calls := by
  obtain ⟨t, reaches, halt⟩ := ends.exists_halt
  exact ⟨t, reaches, halts_of_step halt⟩

end Parser

end PredictiveParsing
