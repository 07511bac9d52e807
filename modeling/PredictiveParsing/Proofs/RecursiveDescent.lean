import PredictiveParsing.Proofs.FaultlessRuns
import PredictiveParsing.Proofs.NestedCalls

/-! The parser does with its two stacks what recursive descent does by nested calls, for any table
whose rules have no end marks and only symbols with texts as their names: it builds the same
trees, is stuck in the same places, and goes on for ever with the same tokens.
-/

namespace PredictiveParsing

variable {τ : Type}

namespace Parser

variable {p : Parser τ} {depth : Nat} {x : Symbol} {tokens : List τ}

-----------------------------------------------------------------------------------------
-- The run does what the calls do
-----------------------------------------------------------------------------------------

/-- The run from a state does what a call does: it hands on the tree and goes on behind its tokens,
or it ends where the call is stuck, or with the fault of the call.
-/
def Realizes (p : Parser τ) (s : State τ) (frames : List (Frame τ)) (below : List Symbol)
    : Descent (Tree τ) τ → Prop
  | .built tree rest => ∃ t, p.Reaches s t ∧ Delivered tree frames s.done below rest t
  | .stuck rest => ∃ index expected calls, p.Ends s ⟨.rejected index expected rest, calls⟩
  | .failed fault => ∃ calls, p.Ends s ⟨.failed fault, calls⟩

/-- The run from a state does what a call does if it comes to a state from which it does so. -/
theorem Realizes.of_reaches {s t : State τ} (reaches : p.Reaches s t) (done : t.done = s.done)
    {frames : List (Frame τ)} {below : List Symbol} {result : Descent (Tree τ) τ}
    (realizes : p.Realizes t frames below result)
    : p.Realizes s frames below result := by
  cases result with
  | built tree rest =>
      obtain ⟨u, later, delivered⟩ := realizes
      exact ⟨u, reaches.trans later, done ▸ delivered⟩
  | stuck rest =>
      obtain ⟨index, expected, calls, ends⟩ := realizes
      exact ⟨index, expected, calls, ends.of_reaches reaches⟩
  | failed fault =>
      obtain ⟨calls, ends⟩ := realizes
      exact ⟨calls, ends.of_reaches reaches⟩

/-- With a symbol on top of the stack, the run does what a call for it does. -/
def Mirrors (p : Parser τ) (call : Symbol → List τ → Option (Descent (Tree τ) τ)) : Prop :=
  ∀ {x : Symbol} {s : State τ} {below : List Symbol} {result : Descent (Tree τ) τ},
    x.isNamed = true
    → s.stack = x :: below
    → call x s.rest = some result
    → p.Realizes s s.frames below result

/-- The run does what the calls for the rest of a body do, and hands on the tree of the rule. By
induction on the rest of the body: all trees but the last are kept in the frame.
-/
theorem Mirrors.realizes {call : Symbol → List τ → Option (Descent (Tree τ) τ)}
    (mirrors : p.Mirrors call) {body : List Symbol} (nonempty : body ≠ [])
    (named : ∀ x ∈ body, x.isNamed = true) {s : State τ} {r : Rule} {built : List Symbol}
    (split : r.body = built ++ body) {children : List (Tree τ)}
    (count : children.length = built.length) {frames : List (Frame τ)}
    (top : s.frames = ⟨r, children⟩ :: frames) {below : List Symbol}
    (stack : s.stack = body ++ below) {result : Descent (List (Tree τ)) τ}
    (h : descendBody call body s.rest = some result)
    : p.Realizes s frames below (result.map fun trees => .node r.lhs (children ++ trees)) := by
  induction body generalizing s built children result with
  | nil => exact absurd rfl nonempty
  | cons x body ih =>
      rw [List.forall_mem_cons] at named
      cases descendBody_cons_iff.mp h with
      | stuck first => exact mirrors named.1 stack first
      | failed first => exact mirrors named.1 stack first
      | @built tree rest result first others =>
          obtain ⟨t, reaches, delivered⟩ := mirrors named.1 stack first
          rw [top] at delivered
          cases body with
          | nil =>
              cases others
              exact ⟨t, reaches, delivered.last split count⟩
          | cons next body =>
              obtain ⟨attached, done⟩ := delivered.inner split count
              -- the frame has one more tree, and the rule waits for the next symbol
              have counted : (children ++ [tree]).length = (built ++ [x]).length := by
                simp [count]
              have later := ih (by simp) named.2 (split.trans (List.append_cons _ _ _)) counted
                attached delivered.stack (delivered.input ▸ others)
              refine Realizes.of_reaches reaches done ?_
              cases result <;> simpa [Descent.map] using later

theorem named_of_choose (named : p.table.Named) {n la : Value} {r : Rule}
    (chosen : p.choose n la = .ok (some r))
    : ∀ x ∈ r.body, x.isNamed = true :=
  named r ⟨n, la, cell_of_choose chosen⟩

/-- The run does what calls of any depth do, by induction on the depth. -/
theorem mirrors_descend (named : p.table.Named) (depth : Nat) : p.Mirrors (p.descend depth) := by
  induction depth with
  | zero => exact fun _ _ h => nomatch h
  | succ depth ih =>
      intro x s below result name stack h
      generalize input : s.rest = tokens at h
      cases descend_succ_iff.mp h with
      | unmatched seen =>
          subst input
          exact ⟨_, .of_halt (step_unmatched seen)⟩
      | endMark => cases name
      | refused seen refused =>
          subst input
          obtain ⟨shown, wording⟩ := Symbol.exists_display_of_isNamed name
          exact ⟨_, _, _, .of_halt (step_reject stack seen refused wording)⟩
      | leaf seen matched =>
          exact ⟨_, .single (.shift stack input seen matched), ⟨rfl, rfl, rfl, rfl⟩⟩
      | unchoosable seen chosen =>
          subst input
          exact ⟨_, .of_halt (step_unchoosable stack seen chosen)⟩
      | empty seen chosen empty =>
          subst input
          exact ⟨_, .single (.erase stack seen chosen empty), ⟨rfl, rfl, rfl, rfl⟩⟩
      | @node name focus tokens r inner seen chosen nonempty body =>
          subst input
          have bare : ([] : List (Tree τ)).length = ([] : List Symbol).length := rfl
          have realizes := ih.realizes nonempty (named_of_choose named chosen)
            (s := s.asked.expand below r) (List.nil_append _).symm bare rfl rfl body
          exact Realizes.of_reaches (.single (.expand stack seen chosen nonempty)) rfl realizes

-----------------------------------------------------------------------------------------
-- The calls come to an end if the run does
-----------------------------------------------------------------------------------------

/-- Recursive descent gives an answer for a symbol, by calls nested at some depth. -/
def Descends (p : Parser τ) (x : Symbol) (tokens : List τ) (answer : Descent (Tree τ) τ) : Prop :=
  ∃ depth, p.descend depth x tokens = some answer

/-- Recursive descent gives one answer at most: that of the deeper calls. -/
theorem Descends.unique {answer other : Descent (Tree τ) τ}
    (first : p.Descends x tokens answer) (second : p.Descends x tokens other)
    : answer = other := by
  obtain ⟨depth, here⟩ := first
  obtain ⟨more, there⟩ := second
  have deeper := descend_mono (Nat.le_max_left depth more) here
  exact Option.some.inj (deeper.symm.trans (descend_mono (Nat.le_max_right depth more) there))

/-- A call gives an answer without further calls, or has to parse the body of a rule. -/
theorem call_or_chosen (p : Parser τ) (x : Symbol) (tokens : List τ)
    : (∃ answer, ∀ parse, p.Call parse x tokens answer)
      ∨ ∃ name focus r,
          x = .nonterm name
          ∧ p.lookahead tokens = .ok focus
          ∧ p.choose (.nonterm name) focus = .ok (some r)
          ∧ r.body ≠ [] := by
  cases seen : p.lookahead tokens with
  | error fault => exact Or.inl ⟨_, fun _ => .unmatched seen⟩
  | ok focus =>
      cases x with
      | endMark => exact Or.inl ⟨_, fun _ => .endMark seen⟩
      | term name =>
          cases tokens with
          | nil => exact Or.inl ⟨_, fun _ => .refused seen .missing⟩
          | cons token rest =>
              by_cases matched : focus.key = (Value.term name).key
              · exact Or.inl ⟨_, fun _ => .leaf seen matched⟩
              · exact Or.inl ⟨_, fun _ => .refused seen (.mismatch seen matched)⟩
      | nonterm name =>
          cases chosen : p.choose (.nonterm name) focus with
          | error fault => exact Or.inl ⟨_, fun _ => .unchoosable seen chosen⟩
          | ok found =>
              cases found with
              | none => exact Or.inl ⟨_, fun _ => .refused seen (.blank seen chosen)⟩
              | some r =>
                  by_cases empty : r.body = []
                  · exact Or.inl ⟨_, fun _ => .empty seen chosen empty⟩
                  · exact Or.inr ⟨name, focus, r, rfl, rfl, chosen, empty⟩

/-- The symbols of a body are parsed if each of them is when the run ends in so many steps. By
induction on the body: behind each tree the run goes on in fewer steps.
-/
theorem exists_descendsBody (named : p.table.Named) {fuel : Nat} {result : Finished τ}
    (answers
      : ∀ {x : Symbol} {s : State τ} {below : List Symbol} {less : Nat},
          less ≤ fuel
          → x.isNamed = true
          → s.stack = x :: below
          → p.run less s = some result
          → ∃ answer, p.Descends x s.rest answer)
    {body : List Symbol} (names : ∀ x ∈ body, x.isNamed = true) {s : State τ}
    {below : List Symbol} (stack : s.stack = body ++ below) {less : Nat} (small : less ≤ fuel)
    (h : p.run less s = some result)
    : ∃ depth answer, p.DescendsBody depth body s.rest answer := by
  induction body generalizing s less with
  | nil => exact ⟨0, _, rfl⟩
  | cons x body ih =>
      rw [List.forall_mem_cons] at names
      obtain ⟨answer, depth, first⟩ := answers small names.1 stack h
      cases answer with
      | stuck rest => exact ⟨depth, _, descendBody_cons_iff.mpr (.stuck first)⟩
      | failed fault => exact ⟨depth, _, descendBody_cons_iff.mpr (.failed first)⟩
      | built tree rest =>
          obtain ⟨t, reaches, delivered⟩ := mirrors_descend named depth names.1 stack first
          obtain ⟨fewer, smaller, later⟩ := run_of_reaches reaches h
          obtain ⟨more, answer, others⟩ :=
            ih names.2 delivered.stack (smaller.trans small) later
          rw [delivered.input] at others
          -- both calls can go as deep as the deeper one
          have first' := descend_mono (Nat.le_max_left depth more) first
          have others' := descendBody_mono
            (fun _ _ _ => descend_mono (Nat.le_max_right depth more)) others
          exact ⟨_, _, descendBody_cons_iff.mpr (.built first' others')⟩

/-- Recursive descent gives an answer if the run ends, by induction on the number of steps. -/
theorem exists_descends (named : p.table.Named) {fuel : Nat} {s : State τ} {below : List Symbol}
    {result : Finished τ} (name : x.isNamed = true) (stack : s.stack = x :: below)
    (h : p.run fuel s = some result)
    : ∃ answer, p.Descends x s.rest answer := by
  induction fuel using Nat.strongRecOn generalizing x s below with
  | ind fuel ih =>
      rcases p.call_or_chosen x s.rest with
        ⟨answer, call⟩ | ⟨name, focus, r, rfl, seen, chosen, nonempty⟩
      · exact ⟨answer, 1, descend_succ_iff.mpr (call _)⟩
      · obtain ⟨less, smaller, later⟩ := run_of_move (.expand stack seen chosen nonempty) h
        obtain ⟨depth, answer, body⟩ := exists_descendsBody named
          (fun small => ih _ (small.trans_lt smaller)) (named_of_choose named chosen)
          (s := s.asked.expand below r) rfl (Nat.le_refl less) later
        exact ⟨_, depth + 1, descend_succ_iff.mpr (.node seen chosen nonempty body)⟩

-----------------------------------------------------------------------------------------
-- Parses and recursive descent from the start symbol
-----------------------------------------------------------------------------------------

/-- An answer for the start symbol says how a parse ends: a tree is accepted if no tokens are left
behind it.
-/
inductive Tells : Descent (Tree τ) τ → Outcome τ → Prop where
  | whole {tree : Tree τ} : Tells (.built tree []) (.accepted tree)
  | leftover {tree : Tree τ} {index : Nat} {expected : Symbol} {remaining : List τ}
    (more : remaining ≠ [])
    : Tells (.built tree remaining) (.rejected index expected remaining)
  | stuck {index : Nat} {expected : Symbol} {remaining : List τ}
    : Tells (.stuck remaining) (.rejected index expected remaining)

section Total

variable (named : p.table.Named) (total : p.Total)

include named total

/-- If recursive descent gives an answer for the start symbol, the parse ends as the answer says. -/
theorem returns_of_descends {answer : Descent (Tree τ) τ}
    (descends : p.Descends p.grammar.startSymbol tokens answer)
    : ∃ result, p.Returns tokens result ∧ Tells answer result.outcome := by
  obtain ⟨depth, h⟩ := descends
  have realizes := mirrors_descend named depth (s := .initial p.grammar.startSymbol tokens)
    rfl rfl h
  cases answer with
  | stuck rest =>
      obtain ⟨index, expected, calls, ends⟩ := realizes
      exact ⟨_, ends, .stuck⟩
  | failed fault =>
      obtain ⟨calls, ends⟩ := realizes
      rcases outcome_of_returns named total ends with ⟨_, same⟩ | ⟨_, _, same⟩ <;> cases same
  | built tree rest =>
      obtain ⟨t, reaches, delivered⟩ := realizes
      cases rest with
      | nil =>
          have halt := p.step_accept delivered.stack delivered.input delivered.complete
          exact ⟨_, (Ends.of_halt halt).of_reaches reaches, .whole⟩
      | cons token rest =>
          obtain ⟨focus, seen, _⟩ := total.exists_lookahead t.rest
          have refused : p.Refuses .endMark t.rest := delivered.input ▸ .leftover
          have halt := step_reject delivered.stack seen refused rfl
          rw [delivered.input] at halt
          exact ⟨_, (Ends.of_halt halt).of_reaches reaches, .leftover (by simp)⟩

/-- If a parse ends, recursive descent gives an answer for the start symbol that says how. -/
theorem descends_of_returns {result : Finished τ} (returned : p.Returns tokens result)
    : ∃ answer, p.Descends p.grammar.startSymbol tokens answer ∧ Tells answer result.outcome := by
  obtain ⟨fuel, h⟩ := returned
  obtain ⟨answer, descends⟩ := exists_descends named
    (s := .initial p.grammar.startSymbol tokens) rfl rfl h
  obtain ⟨other, returned, tells⟩ := returns_of_descends named total descends
  exact ⟨answer, descends, Ends.unique ⟨fuel, h⟩ returned ▸ tells⟩

/-- A parse ends exactly if recursive descent gives an answer. -/
theorem exists_returns_iff
    : (∃ result, p.Returns tokens result)
      ↔ ∃ answer, p.Descends p.grammar.startSymbol tokens answer := by
  constructor
  · rintro ⟨result, returned⟩
    obtain ⟨answer, descends, _⟩ := descends_of_returns named total returned
    exact ⟨answer, descends⟩
  · rintro ⟨answer, descends⟩
    obtain ⟨result, returned, _⟩ := returns_of_descends named total descends
    exact ⟨result, returned⟩

/-- A tree is accepted exactly if recursive descent builds it with no tokens left. -/
theorem accepted_iff_built {tree : Tree τ}
    : (∃ calls, p.Returns tokens ⟨.accepted tree, calls⟩)
      ↔ p.Descends p.grammar.startSymbol tokens (.built tree []) := by
  constructor
  · rintro ⟨calls, returned⟩
    obtain ⟨answer, descends, tells⟩ := descends_of_returns named total returned
    cases tells with
    | whole => exact descends
  · intro descends
    obtain ⟨⟨outcome, calls⟩, returned, tells⟩ := returns_of_descends named total descends
    cases tells with
    | whole => exact ⟨calls, returned⟩
    | leftover more => exact absurd rfl more

/-- Tokens are rejected exactly if recursive descent gets stuck at them, or builds a tree and leaves
them.
-/
theorem rejected_iff_stuck_or_left {remaining : List τ}
    : (∃ index expected calls, p.Returns tokens ⟨.rejected index expected remaining, calls⟩)
      ↔ p.Descends p.grammar.startSymbol tokens (.stuck remaining)
        ∨ remaining ≠ []
          ∧ ∃ tree, p.Descends p.grammar.startSymbol tokens (.built tree remaining) := by
  constructor
  · rintro ⟨index, expected, calls, returned⟩
    obtain ⟨answer, descends, tells⟩ := descends_of_returns named total returned
    cases tells with
    | stuck => exact Or.inl descends
    | leftover more => exact Or.inr ⟨more, _, descends⟩
  · rintro (stuck | ⟨more, tree, built⟩)
    · obtain ⟨⟨outcome, calls⟩, returned, tells⟩ := returns_of_descends named total stuck
      cases tells with
      | stuck => exact ⟨_, _, calls, returned⟩
    · obtain ⟨⟨outcome, calls⟩, returned, tells⟩ := returns_of_descends named total built
      cases tells with
      | whole => exact absurd rfl more
      | leftover => exact ⟨_, _, calls, returned⟩

end Total

/-- A rejection is at the place from which on the tokens are left. -/
theorem rejected_at_iff {index : Nat} {remaining : List τ}
    : (∃ expected calls, p.Returns tokens ⟨.rejected index expected remaining, calls⟩)
      ↔ (index ≤ tokens.length ∧ remaining = tokens.drop index)
        ∧ ∃ other expected calls,
            p.Returns tokens ⟨.rejected other expected remaining, calls⟩ := by
  constructor
  · rintro ⟨expected, calls, returned⟩
    exact ⟨p.builds_any.rejected returned, index, expected, calls, returned⟩
  · rintro ⟨⟨bound, place⟩, other, expected, calls, returned⟩
    obtain ⟨bound', place'⟩ := p.builds_any.rejected returned
    have same := List.drop_eq_drop_iff.mp (place.symm.trans place')
    rw [Nat.min_eq_left bound, Nat.min_eq_left bound'] at same
    exact same ▸ ⟨expected, calls, returned⟩

/-- A parse and recursive descent agree, for any table with names and a matcher that never fails:
the parse accepts the tree that recursive descent builds from all tokens; it is rejected where
recursive descent is stuck, or behind the tokens of a tree if more are left; and it runs for
ever if and only if the calls of recursive descent do not come to an end. A parse does not end
in another way.
-/
theorem returns_iff_descends (p : Parser τ) (named : p.table.Named) (total : p.Total)
    (tokens : List τ)
    : let start := p.grammar.startSymbol
      (∀ tree,
        (∃ calls, p.Returns tokens ⟨.accepted tree, calls⟩)
        ↔ p.Descends start tokens (.built tree []))
      ∧ (∀ index remaining,
          (∃ expected calls, p.Returns tokens ⟨.rejected index expected remaining, calls⟩)
          ↔ (index ≤ tokens.length ∧ remaining = tokens.drop index)
            ∧ (p.Descends start tokens (.stuck remaining)
              ∨ index < tokens.length ∧ ∃ tree, p.Descends start tokens (.built tree remaining)))
      ∧ ((∀ result, ¬ p.Returns tokens result) ↔ ∀ answer, ¬ p.Descends start tokens answer)
      ∧ ∀ fault calls, ¬ p.Returns tokens ⟨.failed fault, calls⟩ := by
  intro start
  refine ⟨fun tree => accepted_iff_built named total, fun index remaining => ?_, ?_, ?_⟩
  · rw [rejected_at_iff, rejected_iff_stuck_or_left named total]
    refine and_congr_right fun ⟨_, place⟩ => ?_
    have more : remaining ≠ [] ↔ index < tokens.length := by
      rw [place, Ne, List.drop_eq_nil_iff, not_le]
    rw [more]
  · simpa only [not_exists] using not_congr (exists_returns_iff named total)
  · intro fault calls returned
    rcases outcome_of_returns named total returned with ⟨_, same⟩ | ⟨_, _, same⟩ <;> cases same

end Parser

/-- A table that has the rule of a nonterminal that is not declared in the row of the brackets. -/
def Table.mixedBrackets : Table :=
  let brackets : Symbol := .nonterm (.text (.ofString "S"))
  let opening : Symbol := .term (.text (.ofString "("))
  let closing : Symbol := .term (.text (.ofString ")"))
  .ofList [(brackets.toValue, .ofList [
    (opening.toValue, ⟨.text (.ofString "T"), [opening, brackets, closing]⟩),
    (closing.toValue, ⟨.text (.ofString "S"), []⟩)
  ])]

theorem Parser.returns_iff_descends_mixedBrackets
    : let p : Parser Text := ⟨.brackets, .mixedBrackets, fun name => .ok (.term (.text name))⟩
      let opening : Text := .ofString "("
      let closing : Text := .ofString ")"
      let inner : Tree Text := .node (.nonterm (.text (.ofString "S"))) []
      let tree : Tree Text :=
        .node (.nonterm (.text (.ofString "T"))) [.leaf opening, inner, .leaf closing]
      p.table.Named
      ∧ p.Total
      ∧ p.Descends p.grammar.startSymbol [opening, closing] (.built tree [])
      ∧ (∃ calls, p.Returns [opening, closing] ⟨.accepted tree, calls⟩)
      ∧ p.Descends p.grammar.startSymbol [opening, opening] (.stuck [])
      ∧ ∃ expected calls, p.Returns [opening, opening] ⟨.rejected 2 expected [], calls⟩ := by
  intro p opening closing inner tree
  have named : p.table.Named := by
    intro r holds
    have all : ∀ row ∈ p.table.entries, ∀ cell ∈ row.2.entries,
        ∀ x ∈ cell.2.body, x.isNamed = true := by decide
    obtain ⟨row, inTable, cell, inRow, rfl⟩ := Table.exists_mem_of_holds holds
    exact all row inTable cell inRow
  have total : p.Total := fun name => ⟨_, rfl, rfl⟩
  have built : p.Descends p.grammar.startSymbol [opening, closing] (.built tree []) := ⟨2, rfl⟩
  have stuck : p.Descends p.grammar.startSymbol [opening, opening] (.stuck []) := ⟨3, rfl⟩
  obtain ⟨accepted, _⟩ := p.returns_iff_descends named total [opening, closing]
  obtain ⟨_, rejected, _⟩ := p.returns_iff_descends named total [opening, opening]
  refine ⟨named, total, built, (accepted tree).mpr built, stuck, ?_⟩
  exact (rejected 2 []).mpr ⟨⟨by decide, rfl⟩, Or.inl stuck⟩

end PredictiveParsing
