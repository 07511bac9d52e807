import PredictiveParsing.Parser.Matcher
import PredictiveParsing.Proofs.FaultlessRuns

/-! A parser sees its tokens only through the matcher. Tokens with the same matched values are
parsed alike, step by step: the trees differ in their leaves only, which hold the tokens as they
are. In particular the matched values are parsed like the tokens themselves if each of them
stands for itself.
-/

namespace PredictiveParsing

variable {τ σ ρ : Type}

-----------------------------------------------------------------------------------------
-- Other tokens in the place of those that a parser holds
-----------------------------------------------------------------------------------------

namespace Tree

mutual

def map (f : τ → σ) : Tree τ → Tree σ
  | .leaf token => .leaf (f token)
  | .node symbol children => .node symbol (mapAll f children)

def mapAll (f : τ → σ) : List (Tree τ) → List (Tree σ)
  | [] => []
  | tree :: trees => tree.map f :: mapAll f trees

end

@[simp] theorem mapAll_eq (f : τ → σ) (trees : List (Tree τ))
    : mapAll f trees = trees.map (map f) := by
  induction trees with
  | nil => rfl
  | cons tree trees ih => rw [mapAll, ih, List.map_cons]

/-- A tree without what its leaves hold. -/
def shape (tree : Tree τ) : Tree Unit :=
  tree.map fun _ => ()

mutual

/-- Other tokens at the leaves leave the shape as it is, by induction on the tree. -/
theorem shape_map (f : τ → σ) (tree : Tree τ) : (tree.map f).shape = tree.shape := by
  cases tree with
  | leaf token => rfl
  | node symbol children => exact congrArg (Tree.node symbol) (shapeAll_mapAll f children)

theorem shapeAll_mapAll (f : τ → σ) (trees : List (Tree τ))
    : mapAll (fun _ => ()) (mapAll f trees) = mapAll (fun _ => ()) trees := by
  cases trees with
  | nil => rfl
  | cons tree trees =>
      have first : (tree.map f).map (fun _ => ()) = tree.map fun _ => () := shape_map f tree
      rw [mapAll, mapAll, first, shapeAll_mapAll f trees, mapAll]

end

end Tree

namespace Frame

def map (f : τ → σ) (frame : Frame τ) : Frame σ :=
  ⟨frame.rule, frame.children.map (Tree.map f)⟩

@[simp] theorem isComplete_map (f : τ → σ) (frame : Frame τ)
    : (frame.map f).isComplete = frame.isComplete := by
  simp [isComplete, map]

@[simp] theorem push_map (f : τ → σ) (frame : Frame τ) (tree : Tree τ)
    : (frame.map f).push (tree.map f) = (frame.push tree).map f := by
  simp [push, map]

@[simp] theorem tree_map (f : τ → σ) (frame : Frame τ)
    : (frame.map f).tree = frame.tree.map f := by
  simp [Frame.tree, map, Tree.map]

/-- A tree is handed on whatever its leaves hold, by induction on the frames. -/
theorem attach_map (f : τ → σ) (tree : Tree τ) (frames : List (Frame τ))
    : attach (tree.map f) (frames.map (map f))
      = ((attach tree frames).1.map (map f), (attach tree frames).2.map (Tree.map f)) := by
  induction frames generalizing tree with
  | nil => rfl
  | cons frame frames ih =>
      simp only [List.map_cons, attach, push_map, isComplete_map, tree_map]
      split
      · exact ih _
      · rfl

end Frame

namespace State

def map (f : τ → σ) (s : State τ) : State σ where
  stack := s.stack
  frames := s.frames.map (Frame.map f)
  done := s.done.map (Tree.map f)
  index := s.index
  rest := s.rest.map f
  calls := s.calls

variable (f : τ → σ) (s : State τ)

theorem asked_map : (s.map f).asked = s.asked.map f := by
  simp [asked, map]

theorem attach_map (below : List Symbol) (tree : Tree τ)
    : (s.map f).attach below (tree.map f) = (s.attach below tree).map f := by
  simp [attach, map, Frame.attach_map]

theorem expand_map (below : List Symbol) (r : Rule)
    : (s.map f).expand below r = (s.expand below r).map f := by
  simp [expand, map, Frame.map]

end State

def Outcome.map (f : τ → σ) : Outcome τ → Outcome σ
  | .accepted tree => .accepted (tree.map f)
  | .rejected index expected remaining => .rejected index expected (remaining.map f)
  | .failed fault => .failed fault

def Step.map (f : τ → σ) : Step τ → Step σ
  | .next s => .next (s.map f)
  | .halt outcome calls => .halt (outcome.map f) calls

def Finished.map (f : τ → σ) (result : Finished τ) : Finished σ :=
  ⟨result.outcome.map f, result.calls⟩

theorem State.reject_map (f : τ → σ) (s : State τ) (expected : Symbol)
    : (s.map f).reject expected = (s.reject expected).map f := by
  unfold reject
  split <;> rfl

-----------------------------------------------------------------------------------------
-- A parser on tokens that stand for those of another
-----------------------------------------------------------------------------------------

namespace Parser

/-- The parser that takes each token for another one. -/
def comap (f : τ → σ) (q : Parser σ) : Parser τ :=
  ⟨q.grammar, q.table, fun token => q.matcher (f token)⟩

variable (f : τ → σ) (q : Parser σ)

theorem lookahead_comap (tokens : List τ)
    : q.lookahead (tokens.map f) = (q.comap f).lookahead tokens := by
  cases tokens <;> rfl

theorem stepEnd_map (s : State τ) : stepEnd (s.map f) = (stepEnd s).map f := by
  unfold stepEnd
  cases input : s.rest with
  | nil =>
      cases done : s.done with
      | nil => simp [State.map, input, done, Step.map, Outcome.map]
      | cons tree more => simp [State.map, input, done, Step.map, Outcome.map]
  | cons token rest => simp [← State.reject_map, State.map, input]

/-- A step at a terminal is the same with other tokens, by the cases of the input. -/
theorem stepTerm_map (s : State τ) (focus name : Value) (below : List Symbol)
    : stepTerm (s.map f) focus name below = (stepTerm s focus name below).map f := by
  unfold stepTerm
  cases input : s.rest with
  | nil => simp [← State.reject_map, State.map, input]
  | cons token rest =>
      have left : (s.map f).rest = f token :: rest.map f := by simp [State.map, input]
      rw [left]
      dsimp only
      split
      · have attached := s.attach_map f below (.leaf token)
        exact congrArg (fun u => Step.next (u.advance (rest.map f))) attached
      · exact s.reject_map f _

/-- A step at a nonterminal is the same with other tokens, since the table does not see them. -/
theorem stepNonterm_comap (s : State τ) (focus name : Value) (below : List Symbol)
    : q.stepNonterm (s.map f) focus name below
      = ((q.comap f).stepNonterm s focus name below).map f := by
  have choices : (q.comap f).choose (.nonterm name) focus = q.choose (.nonterm name) focus := rfl
  unfold stepNonterm
  rw [choices]
  split
  · rfl
  · exact s.reject_map f _
  · split
    · exact congrArg Step.next (s.attach_map f below (.node (.nonterm name) []))
    · exact congrArg Step.next (s.expand_map f below _)

/-- A step sees the next token only through the matcher, and puts it into a leaf as it is. -/
theorem step_comap (s : State τ) : q.step (s.map f) = ((q.comap f).step s).map f := by
  have looking : q.lookahead (s.map f).rest = (q.comap f).lookahead s.rest :=
    q.lookahead_comap f s.rest
  rw [step_eq, step_eq, looking, State.asked_map]
  split
  · rfl
  · rename_i focus seen
    have tops : (s.map f).stack = s.stack := rfl
    rw [tops]
    split
    · rfl
    · exact stepEnd_map f s.asked
    · exact stepTerm_map f s.asked focus _ _
    · exact q.stepNonterm_comap f s.asked focus _ _

/-- The runs keep step, by induction on the number of steps. -/
theorem run_comap (fuel : Nat) (s : State τ)
    : q.run fuel (s.map f) = ((q.comap f).run fuel s).map (Finished.map f) := by
  induction fuel generalizing s with
  | zero => rfl
  | succ fuel ih =>
      rw [run, run, step_comap]
      cases (q.comap f).step s with
      | halt outcome calls => rfl
      | next t => exact ih t

/-- A parse of other tokens is that of a parser which takes the tokens for these. -/
theorem parse_comap (fuel : Nat) (tokens : List τ)
    : q.parse fuel (tokens.map f) = ((q.comap f).parse fuel tokens).map (Finished.map f) :=
  q.run_comap f fuel (.initial q.grammar.startSymbol tokens)

-----------------------------------------------------------------------------------------
-- Tokens with the same matched values
-----------------------------------------------------------------------------------------

end Parser

/-- Two ends of parses that differ in their tokens only: trees of one shape, with all tokens at their
leaves, rejections at one place and for one expected symbol, or one fault.
-/
inductive Outcome.Alike (tokens : List τ) (others : List σ) : Outcome τ → Outcome σ → Prop where
  | accepted {tree : Tree τ} {other : Tree σ} (shape : other.shape = tree.shape)
    (leaves : tree.frontier = tokens) (leaves' : other.frontier = others)
    : Alike tokens others (.accepted tree) (.accepted other)
  | rejected {index : Nat} {expected : Symbol}
    (lengths : (others.drop index).length = (tokens.drop index).length)
    : Alike tokens others (.rejected index expected (tokens.drop index))
        (.rejected index expected (others.drop index))
  | failed {fault : Fault} : Alike tokens others (.failed fault) (.failed fault)

namespace Parser

/-- The parses of tokens and of others both go on forever, or they end alike and with as many calls
of the matcher.
-/
structure ParsesAlike (p : Parser τ) (q : Parser σ) (tokens : List τ) (others : List σ) : Prop where
  ends : (∃ result, p.Returns tokens result) ↔ ∃ other, q.Returns others other
  alike
    : ∀ {result other},
        p.Returns tokens result
        → q.Returns others other
        → other.calls = result.calls ∧ Outcome.Alike tokens others result.outcome other.outcome

section Matched

variable {q : Parser ρ} {m : τ → ρ} {n : σ → ρ} {tokens : List τ} {others : List σ}

/-- Where two lists of tokens are taken for the same values and one parse ends, the other one ends
too, and alike once the tokens are taken for these values.
-/
theorem returns_of_matched (same : others.map n = tokens.map m) {result : Finished τ}
    (returned : (q.comap m).Returns tokens result)
    : ∃ other, (q.comap n).Returns others other ∧ other.map n = result.map m := by
  obtain ⟨fuel, h⟩ := returned
  have lockstep : ((q.comap n).parse fuel others).map (Finished.map n)
      = ((q.comap m).parse fuel tokens).map (Finished.map m) := by
    rw [← parse_comap, ← parse_comap, same]
  rw [h] at lockstep
  obtain ⟨other, h', equal⟩ := Option.map_eq_some_iff.mp lockstep
  exact ⟨other, ⟨fuel, h'⟩, equal⟩

/-- Two ends that stand for the same matched values are alike, since each of them has the tokens of
its own parse.
-/
theorem alike_of_matched (same : others.map n = tokens.map m) {p : Parser τ} {p' : Parser σ}
    {result : Finished τ} {other : Finished σ} (returned : p.Returns tokens result)
    (returned' : p'.Returns others other) (equal : other.map n = result.map m)
    : other.calls = result.calls ∧ Outcome.Alike tokens others result.outcome other.outcome := by
  obtain ⟨outcome, calls⟩ := result
  obtain ⟨outcome', calls'⟩ := other
  obtain ⟨outcomes, rfl⟩ := Finished.mk.inj equal
  refine ⟨rfl, ?_⟩
  -- a rejection only tells how many tokens are left
  have lengths : others.length = tokens.length := by
    simpa using congrArg List.length same
  cases outcome with
  | accepted tree =>
      cases outcome' with
      | accepted other =>
          have trees : other.map n = tree.map m := Outcome.accepted.inj outcomes
          have shapes : other.shape = tree.shape := by
            rw [← Tree.shape_map n, ← Tree.shape_map m, trees]
          exact .accepted shapes (p.builds_any.accepted returned).2
            (p'.builds_any.accepted returned').2
      | rejected | failed => cases outcomes
  | rejected index expected remaining =>
      cases outcome' with
      | rejected index' expected' remaining' =>
          obtain ⟨rfl, rfl, _⟩ := Outcome.rejected.inj outcomes
          obtain ⟨_, rfl⟩ := p.builds_any.rejected returned
          obtain ⟨_, rfl⟩ := p'.builds_any.rejected returned'
          exact .rejected (by simp [lengths])
      | accepted | failed => cases outcomes
  | failed fault =>
      cases outcome' with
      | failed fault' =>
          cases outcomes
          exact .failed
      | accepted | rejected => cases outcomes

/-- Parses of tokens that are taken for the same values are alike, since both are that of the
values.
-/
theorem parsesAlike_of_matched (same : others.map n = tokens.map m)
    : (q.comap m).ParsesAlike (q.comap n) tokens others where
  ends := by
    constructor
    · rintro ⟨_, returned⟩
      obtain ⟨other, returned', _⟩ := returns_of_matched same returned
      exact ⟨other, returned'⟩
    · rintro ⟨_, returned⟩
      obtain ⟨result, returned', _⟩ := returns_of_matched same.symm returned
      exact ⟨result, returned'⟩
  alike := by
    intro result other returned returned'
    obtain ⟨found, ends, equal⟩ := returns_of_matched same returned
    cases Ends.unique ends returned'
    exact alike_of_matched same returned returned' equal

end Matched

/-- If the matcher never fails, a parser treats tokens as the parser without a matcher treats the
matched values: both parses go on forever, or both end alike, with as many calls of the matcher,
and for tables with texts as names the only fault is that no tree is found. So any tokens with the
same matched values are parsed alike, whatever the tokens are.
-/
theorem parses_matched_values (g : Grammar) (t : Table) (m : τ → Value)
    (hashable : ∀ token, (m token).hashable = true) (tokens : List τ)
    : let p : Parser τ := ⟨g, t, fun token => .ok (m token)⟩
      p.ParsesAlike ⟨g, t, Matcher.identity⟩ tokens (tokens.map m)
      ∧ (t.TextNamed
        → ∀ fault calls, p.Returns tokens ⟨.failed fault, calls⟩ → fault = .noTree)
      ∧ ∀ {σ : Type} (n : σ → Value) (others : List σ),
          others.map n = tokens.map m
          → p.ParsesAlike ⟨g, t, fun other => .ok (n other)⟩ tokens others := by
  intro p
  let q : Parser Value := ⟨g, t, Matcher.identity⟩
  refine ⟨?_, fun texts fault calls failed => ?_, fun n others same => ?_⟩
  · exact parsesAlike_of_matched (q := q) (m := m) (n := id) (List.map_id _)
  · have total : p.Total := fun token => ⟨m token, rfl, hashable token⟩
    rcases outcome_of_textNamed texts total failed with ⟨_, other⟩ | ⟨_, _, other⟩ | ⟨same, _⟩
    · cases other
    · cases other
    · exact Outcome.failed.inj same
  · exact parsesAlike_of_matched (q := q) same

theorem parses_matched_values_brackets
    : let t := Grammar.brackets.ownTable
      let named : Text → Value := fun name => .term (.text name)
      let sorted : Text × Nat → Value := fun token => .term (.text token.1)
      let p : Parser Text := ⟨.brackets, t, fun name => .ok (named name)⟩
      let q : Parser (Text × Nat) := ⟨.brackets, t, fun token => .ok (sorted token)⟩
      let symbol := Grammar.brackets.startSymbol.toValue
      let opening : Text := .ofString "("
      let closing : Text := .ofString ")"
      let tree : Tree Text :=
        .node symbol [.leaf opening, .node symbol [], .leaf closing, .node symbol []]
      let other : Tree (Text × Nat) :=
        .node symbol [.leaf (opening, 1), .node symbol [], .leaf (closing, 2), .node symbol []]
      (∀ name, (named name).hashable = true)
      ∧ t.TextNamed
      ∧ p.ParsesAlike ⟨.brackets, t, Matcher.identity⟩ [opening, closing]
          [named opening, named closing]
      ∧ p.Returns [opening, closing] ⟨.accepted tree, 4⟩
      ∧ q.Returns [(opening, 1), (closing, 2)] ⟨.accepted other, 4⟩
      ∧ p.ParsesAlike q [opening, closing] [(opening, 1), (closing, 2)] := by
  intro t named sorted p q symbol opening closing tree other
  have hashable : ∀ name, (named name).hashable = true := fun _ => rfl
  have texts : t.TextNamed := (Grammar.brackets.named_table _ _).textNamed
  obtain ⟨matched, _, alike⟩ := parses_matched_values .brackets t named hashable [opening, closing]
  exact ⟨hashable, texts, matched, ⟨6, rfl⟩, ⟨6, rfl⟩, alike sorted _ rfl⟩

end Parser

end PredictiveParsing
