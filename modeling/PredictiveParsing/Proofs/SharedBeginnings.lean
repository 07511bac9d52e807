import PredictiveParsing.Proofs.TreeBuilding

/-! Two parsers with one table, on tokens that their matchers see alike up to some place: they
make the same moves up to that place, and refuse the same symbols there.
-/

namespace PredictiveParsing.Parser

variable {τ σ : Type} {p : Parser τ} {q : Parser σ}

/-- Parsers see the same lookahead if their matchers give the same for the next token. -/
theorem lookahead_alike {tokens : List τ} {others : List σ}
    (next : others.head?.map q.matcher = tokens.head?.map p.matcher)
    : q.lookahead others = p.lookahead tokens := by
  cases tokens with
  | nil =>
      cases others with
      | nil => rfl
      | cons other rest => cases next
  | cons token rest =>
      cases others with
      | nil => cases next
      | cons other more => exact Option.some.inj next

/-- Two parsers have come equally far: they expect the same symbols, have read as many tokens and
have asked their matchers as often.
-/
structure Abreast (s : State τ) (u : State σ) : Prop where
  stack : u.stack = s.stack
  index : u.index = s.index
  calls : u.calls = s.calls

theorem Abreast.asked {s : State τ} {u : State σ} (abreast : Abreast s u)
    (next : u.rest.head?.map q.matcher = s.rest.head?.map p.matcher)
    : Abreast s.asked u.asked := by
  have counts : (u.rest.take 1).length = (s.rest.take 1).length := by
    cases there : u.rest with
    | nil =>
        cases here : s.rest with
        | nil => rfl
        | cons token rest => simp [there, here] at next
    | cons other more =>
        cases here : s.rest with
        | nil => simp [there, here] at next
        | cons token rest => simp
  refine ⟨abreast.stack, abreast.index, ?_⟩
  rw [State.asked, State.asked, counts, abreast.calls]

/-- A move depends on the stack and on what the matcher says about the next token. -/
theorem Move.alike (tables : q.table = p.table) {s t : State τ} (move : p.Move s t)
    {u : State σ} (abreast : Abreast s u)
    (next : u.rest.head?.map q.matcher = s.rest.head?.map p.matcher)
    : ∃ v,
        q.Move u v
        ∧ Abreast t v
        ∧ (t.rest = s.rest ∧ v.rest = u.rest
          ∨ ∃ token other, s.rest = token :: t.rest ∧ u.rest = other :: v.rest) := by
  have choices : ∀ n la, q.choose n la = p.choose n la := fun n la => by rw [choose, tables, choose]
  have looking := lookahead_alike next
  have asked := abreast.asked next
  cases move with
  | @shift name focus below token rest top input seen matched =>
      rw [input] at next
      cases other : u.rest with
      | nil => simp [other] at next
      | cons first more =>
          rw [other] at next
          have seen' : q.matcher first = .ok focus := (Option.some.inj next).trans seen
          have further : u.asked.index + 1 = s.asked.index + 1 := congrArg (· + 1) asked.index
          exact ⟨_, .shift (abreast.stack.trans top) other seen' matched,
            ⟨rfl, further, asked.calls⟩, Or.inr ⟨token, first, input, rfl⟩⟩
  | erase top seen chosen empty =>
      rw [← choices] at chosen
      exact ⟨_, .erase (abreast.stack.trans top) (looking.trans seen) chosen empty,
        ⟨rfl, asked.index, asked.calls⟩, Or.inl ⟨rfl, rfl⟩⟩
  | expand top seen chosen nonempty =>
      rw [← choices] at chosen
      exact ⟨_, .expand (abreast.stack.trans top) (looking.trans seen) chosen nonempty,
        ⟨rfl, asked.index, asked.calls⟩, Or.inl ⟨rfl, rfl⟩⟩

/-- A run reads tokens from the left. -/
theorem Reaches.rest_suffix {s t : State τ} (reaches : p.Reaches s t) : t.rest <:+ s.rest := by
  have keeps (u v : State τ) (before : u.rest <:+ s.rest) (move : p.Move u v)
      : v.rest <:+ s.rest := by
    cases move with
    | shift stack input =>
        rw [input] at before
        exact (List.suffix_cons _ _).trans before
    | erase => exact before
    | expand => exact before
  exact reaches.invariant keeps (List.suffix_refl _)

/-- A run on the tokens of one parser is one on the tokens of the other, up to the place where
they differ. By induction on the steps: each makes the same move, and both read a token or
none does.
-/
theorem Reaches.alike (tables : q.table = p.table) {s t : State τ} (reaches : p.Reaches s t)
    {read : List τ} (input : s.rest = read ++ t.rest) {u : State σ} (abreast : Abreast s u)
    {seen rest : List σ} (ahead : u.rest = seen ++ rest)
    (same : List.Forall₂ (fun token other => q.matcher other = p.matcher token) read seen)
    (next : rest.head?.map q.matcher = t.rest.head?.map p.matcher)
    : ∃ v, q.Reaches u v ∧ Abreast t v ∧ v.rest = rest := by
  induction reaches using Relation.ReflTransGen.head_induction_on generalizing read u seen with
  | refl =>
      have none : read = [] := List.self_eq_append_left.mp input
      subst none
      cases same
      exact ⟨u, .refl, abreast, ahead⟩
  | @head s s' move later ih =>
      have looking : u.rest.head?.map q.matcher = s.rest.head?.map p.matcher := by
        rw [input, ahead]
        cases same with
        | nil => exact next
        | cons first _ => exact congrArg some first
      obtain ⟨u', move', level, moved⟩ := move.alike tables abreast looking
      rcases moved with ⟨still, still'⟩ | ⟨token, other, shifted, shifted'⟩
      · obtain ⟨v, reaches', done⟩ := ih (still.trans input) level (still'.trans ahead) same
        exact ⟨v, .head move' reaches', done⟩
      · cases same with
        | nil =>
            -- the token that is read now cannot be one of the rest
            have shorter := (Reaches.rest_suffix later).length_le
            have longer := congrArg List.length (shifted.symm.trans input)
            simp at longer
            omega
        | cons _ more =>
            have input' := List.tail_eq_of_cons_eq (shifted.symm.trans input)
            have ahead' := List.tail_eq_of_cons_eq (shifted'.symm.trans ahead)
            obtain ⟨v, reaches', done⟩ := ih input' level ahead' more
            exact ⟨v, .head move' reaches', done⟩

/-- Whether a symbol is refused depends on what the matcher says about the next token, and on
whether there is one.
-/
theorem Refuses.alike (tables : q.table = p.table) {x : Symbol} {tokens : List τ}
    (refused : p.Refuses x tokens) {others : List σ}
    (next : others.head?.map q.matcher = tokens.head?.map p.matcher)
    : q.Refuses x others := by
  have looking := lookahead_alike next
  cases refused with
  | leftover =>
      cases others with
      | nil => cases next
      | cons other more => exact .leftover
  | missing =>
      cases others with
      | nil => exact .missing
      | cons other more => cases next
  | mismatch seen differs =>
      cases others with
      | nil => cases next
      | cons other more => exact .mismatch ((Option.some.inj next).trans seen) differs
  | blank seen chosen =>
      refine .blank (looking.trans seen) ?_
      rw [choose, tables]
      exact chosen

/-- A symbol that the next token does not call for is not moved, by the cases of moves. -/
theorem Refuses.not_move {s t : State τ} {x : Symbol} {below : List Symbol}
    (stack : s.stack = x :: below) (refused : p.Refuses x s.rest)
    : ¬ p.Move s t := by
  intro move
  cases move with
  | shift top input seen matched =>
      obtain ⟨rfl, rfl⟩ := List.cons_eq_cons.mp (stack.symm.trans top)
      rw [input] at refused
      cases refused with
      | mismatch seen' differs =>
          cases seen.symm.trans seen'
          exact differs matched
  | erase top seen chosen _ =>
      obtain ⟨rfl, rfl⟩ := List.cons_eq_cons.mp (stack.symm.trans top)
      cases refused with
      | blank seen' chosen' =>
          cases seen.symm.trans seen'
          cases chosen.symm.trans chosen'
  | expand top seen chosen _ =>
      obtain ⟨rfl, rfl⟩ := List.cons_eq_cons.mp (stack.symm.trans top)
      cases refused with
      | blank seen' chosen' =>
          cases seen.symm.trans seen'
          cases chosen.symm.trans chosen'

/-- Nothing is accepted with a refused symbol on top of the stack: the step halts, and it only
accepts with the end mark there and behind the last token.
-/
theorem Refuses.not_accepts {s : State τ} {x : Symbol} {below : List Symbol}
    (stack : s.stack = x :: below) (refused : p.Refuses x s.rest) {tree : Tree τ} {calls : Nat}
    : ¬ p.Ends s ⟨.accepted tree, calls⟩ := by
  intro ends
  obtain ⟨t, reaches, halts, _⟩ := ends.exists_halts
  rcases Relation.ReflTransGen.cases_head reaches with rfl | ⟨u, move, _⟩
  · cases halts with
    | accept top input done =>
        obtain ⟨rfl, _⟩ := List.cons_eq_cons.mp (stack.symm.trans top)
        rw [input] at refused
        cases refused
  · exact refused.not_move stack move

end PredictiveParsing.Parser
