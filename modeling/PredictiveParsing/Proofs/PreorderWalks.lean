import Mathlib.Data.List.DropRight
import Mathlib.Data.List.Infix
import PredictiveParsing.Proofs.AcceptedTrees

/-! The run that accepts a tree is the walk through it in pre-order: each step but the last one
comes to the next node or leaf, whatever the tree looks like and whatever frames it is put
together from. So the shape of the tree tells how many steps there are, and how often the matcher
is asked.
-/

namespace PredictiveParsing

variable {τ : Type}

/-- A node or a leaf of a tree, without what is below it. -/
inductive Vertex (τ : Type) where
  | leaf (token : τ)
  | node (symbol : Value)

namespace Vertex

def isLeaf : Vertex τ → Bool
  | .leaf _ => true
  | .node _ => false

def isNode : Vertex τ → Bool
  | .leaf _ => false
  | .node _ => true

end Vertex

namespace Tree

mutual

/-- The vertices in pre-order: a node comes before the ones below it. -/
def preorder : Tree τ → List (Vertex τ)
  | .leaf token => [.leaf token]
  | .node symbol children => .node symbol :: preorderAll children

def preorderAll : List (Tree τ) → List (Vertex τ)
  | [] => []
  | tree :: trees => tree.preorder ++ preorderAll trees

end

@[simp] theorem preorderAll_append (trees more : List (Tree τ))
    : preorderAll (trees ++ more) = preorderAll trees ++ preorderAll more := by
  induction trees with
  | nil => rfl
  | cons tree trees ih => simp [preorderAll, ih]

@[simp] theorem preorderAll_singleton (tree : Tree τ) : preorderAll [tree] = tree.preorder := by
  simp [preorderAll]

mutual

/-- There are as many vertices as the size says, by recursion on the tree. -/
@[simp] theorem length_preorder : ∀ tree : Tree τ, tree.preorder.length = tree.size
  | .leaf _ => rfl
  | .node _ children => by simp [preorder, size, length_preorderAll children]

theorem length_preorderAll
    : ∀ trees : List (Tree τ), (preorderAll trees).length = sizeAll trees
  | [] => rfl
  | tree :: trees => by
      simp [preorderAll, sizeAll, length_preorder tree, length_preorderAll trees]

end

mutual

@[simp] theorem countP_isLeaf_preorder
    : ∀ tree : Tree τ, tree.preorder.countP Vertex.isLeaf = tree.leafCount
  | .leaf _ => rfl
  | .node _ children => by
      simp [preorder, leafCount, Vertex.isLeaf, countP_isLeaf_preorderAll children]

theorem countP_isLeaf_preorderAll
    : ∀ trees : List (Tree τ), (preorderAll trees).countP Vertex.isLeaf = leafCountAll trees
  | [] => rfl
  | tree :: trees => by
      simp [preorderAll, leafCountAll, countP_isLeaf_preorder tree,
        countP_isLeaf_preorderAll trees]

end

end Tree

-----------------------------------------------------------------------------------------
-- The vertices to which a parser has come
-----------------------------------------------------------------------------------------

/-- The vertices to which the rules that are not complete have come: the node of each of them, an
outer one before an inner one, and behind it the vertices of the trees that it has so far.
-/
def Frame.visited : List (Frame τ) → List (Vertex τ)
  | [] => []
  | f :: frames => visited frames ++ .node f.rule.lhs :: Tree.preorderAll f.children

/-- Handing on a tree adds its vertices behind the others, by induction on the frames: the frames
that it completes become trees, whose vertices keep their order.
-/
theorem Frame.visited_attach (tree : Tree τ) (frames : List (Frame τ))
    : Tree.preorderAll (attach tree frames).2 ++ visited (attach tree frames).1
      = visited frames ++ tree.preorder := by
  induction frames generalizing tree with
  | nil => simp [attach, visited]
  | cons f frames ih =>
      rw [attach]
      split
      · simp [ih, visited, Frame.tree, push, Tree.preorder]
      · simp [visited, push, Tree.preorderAll]

namespace State

/-- The vertices to which a run has come, of complete trees and of those that are being built. -/
def visited (s : State τ) : List (Vertex τ) :=
  Tree.preorderAll s.done ++ Frame.visited s.frames

@[simp] theorem visited_initial (start : Symbol) (tokens : List τ)
    : (initial start tokens).visited = [] := rfl

/-- Handing on a tree comes to its vertices, wherever it is put. -/
theorem visited_attach (s : State τ) (below : List Symbol) (tree : Tree τ)
    : (s.attach below tree).visited = s.visited ++ tree.preorder := by
  simp [visited, Frame.visited_attach]

theorem visited_expand (s : State τ) (below : List Symbol) (r : Rule)
    : (s.expand below r).visited = s.visited ++ [.node r.lhs] := by
  simp [visited, Frame.visited, Tree.preorderAll]

/-- A nonterminal is on top of the stack, and there are tokens left to read. -/
def expandsBeforeInput (s : State τ) : Bool :=
  match s.stack with
  | .nonterm _ :: _ => !s.rest.isEmpty
  | _ => false

end State

namespace Parser

variable {p : Parser τ} {s t u : State τ}

/-- A step comes to a leaf, and reads its token for the terminal on top of the stack, or to a node,
for the nonterminal there.
-/
inductive Visit (s : State τ) : Vertex τ → State τ → Prop where
  | leaf {token : τ} {t : State τ} {name : Value} {below : List Symbol}
    (stack : s.stack = .term name :: below) (input : s.rest = token :: t.rest)
    : Visit s (.leaf token) t
  | node {symbol : Value} {t : State τ} {name : Value} {below : List Symbol}
    (stack : s.stack = .nonterm name :: below) (input : t.rest = s.rest)
    : Visit s (.node symbol) t

/-- A move comes to one vertex, behind all others to which the run has come. -/
theorem Move.exists_visit (move : p.Move s t)
    : ∃ v, Visit s v t ∧ t.visited = s.visited ++ [v] ∧ t.calls = s.asked.calls := by
  cases move with
  | @shift name focus below token rest stack input seen matched =>
      exact ⟨.leaf token, .leaf stack input, s.asked.visited_attach below (.leaf token), rfl⟩
  | @erase name focus below r stack seen chosen empty =>
      exact ⟨.node (.nonterm name), .node stack rfl,
        s.asked.visited_attach below (.node (.nonterm name) []), rfl⟩
  | @expand name focus below r stack seen chosen nonempty =>
      exact ⟨.node r.lhs, .node stack rfl, s.asked.visited_expand below r, rfl⟩

/-- The states in which the steps of a run start, for at most `fuel` steps. -/
def steps (p : Parser τ) : Nat → State τ → List (State τ)
  | 0, _ => []
  | fuel + 1, s =>
      match p.step s with
      | .halt _ _ => [s]
      | .next t => s :: p.steps fuel t

/-- A run that halts in a state takes one step for each vertex to which it comes before, and one
more. By induction on the moves, the last one first.
-/
theorem exists_steps_of_reaches (reaches : p.Reaches s u) {outcome : Outcome τ} {calls : Nat}
    (halt : p.step u = .halt outcome calls)
    : ∃ later,
        u.visited = s.visited ++ later
        ∧ ∀ fuel,
            (p.run fuel s = if later.length < fuel then some ⟨outcome, calls⟩ else none)
            ∧ (later.length < fuel →
              (p.steps fuel s).map State.visited = later.inits.map (s.visited ++ ·)) := by
  induction reaches using Relation.ReflTransGen.head_induction_on with
  | refl =>
      refine ⟨[], by simp, fun fuel => ?_⟩
      cases fuel with
      | zero => simp [run]
      | succ fuel => simp [run, steps, halt]
  | @head s t move _ ih =>
      obtain ⟨later, whole, runs⟩ := ih
      obtain ⟨v, _, visited, _⟩ := move.exists_visit
      refine ⟨v :: later, by simp [whole, visited], fun fuel => ?_⟩
      cases fuel with
      | zero => simp [run]
      | succ fuel =>
          obtain ⟨result, states⟩ := runs fuel
          constructor
          · simp [run, move.step_eq, result]
          · intro enough
            simp [steps, move.step_eq, states (Nat.lt_of_succ_lt_succ enough), visited]

-----------------------------------------------------------------------------------------
-- The calls of the matcher
-----------------------------------------------------------------------------------------

/-- The matcher is asked for each vertex while there is input left, and behind the last token it
has been asked for the vertices up to the last leaf.
-/
structure Asked (s : State τ) : Prop where
  inside : s.rest ≠ [] → s.calls = s.visited.length
  behind : s.rest = [] → s.calls = (s.visited.rdropWhile Vertex.isNode).length

theorem Asked.initial (start : Symbol) (tokens : List τ) : Asked (.initial start tokens) :=
  ⟨fun _ => rfl, fun _ => rfl⟩

/-- A move keeps the count of calls: it asks for a leaf always, and for a node as long as there is
input left.
-/
theorem Asked.move (asked : Asked s) (move : p.Move s t) : Asked t := by
  obtain ⟨v, visit, visited, calls⟩ := move.exists_visit
  cases visit with
  | @leaf token _ name below stack input =>
      have counted : t.calls = t.visited.length := by
        rw [calls, visited]
        simp [State.asked, input, asked.inside (by simp [input])]
      refine ⟨fun _ => counted, fun _ => ?_⟩
      rw [counted, visited, List.rdropWhile_concat_neg _ _ _ (by simp [Vertex.isNode])]
  | @node symbol _ name below stack input =>
      constructor
      · intro left
        rw [input] at left
        obtain ⟨token, rest, next⟩ := List.exists_cons_of_ne_nil left
        rw [calls, visited]
        simp [State.asked, next, asked.inside left]
      · intro none
        rw [input] at none
        rw [calls, visited, List.rdropWhile_concat_pos _ _ _ rfl, ← asked.behind none]
        simp [State.asked, none]

/-- A move that asks the matcher comes to a leaf, or to a node before input that is left. -/
theorem Move.calls_add (move : p.Move s t)
    : t.calls + s.visited.countP Vertex.isLeaf
      = s.calls + t.visited.countP Vertex.isLeaf + s.expandsBeforeInput.toNat := by
  obtain ⟨v, visit, visited, calls⟩ := move.exists_visit
  rw [calls, visited, List.countP_append]
  cases visit with
  | leaf stack input =>
      simp [State.asked, State.expandsBeforeInput, stack, input, Vertex.isLeaf]
      omega
  | node stack input =>
      cases left : s.rest <;>
        simp [State.asked, State.expandsBeforeInput, stack, left, Vertex.isLeaf]
      omega

/-- A run that halts behind the last token has asked the matcher for each leaf to which it came, and
for each nonterminal that was on top of the stack before input. By induction on the moves, the last
one first.
-/
theorem calls_of_reaches (reaches : p.Reaches s u) {result : Finished τ}
    (halt : p.step u = .halt result.outcome result.calls) (input : u.rest = []) {fuel : Nat}
    (ends : p.run fuel s = some result)
    : result.calls + s.visited.countP Vertex.isLeaf
      = s.calls + u.visited.countP Vertex.isLeaf
        + (p.steps fuel s).countP State.expandsBeforeInput := by
  induction reaches using Relation.ReflTransGen.head_induction_on generalizing fuel with
  | refl =>
      cases fuel with
      | zero => cases ends
      | succ fuel =>
          have idle : u.expandsBeforeInput = false := by
            unfold State.expandsBeforeInput
            split <;> simp [input]
          simp [(halts_of_step halt).2, State.asked, steps, halt, input, idle]
  | @head s t move _ ih =>
      cases fuel with
      | zero => cases ends
      | succ fuel =>
          rw [run, move.step_eq] at ends
          have later := ih ends
          have now := move.calls_add
          rw [steps, move.step_eq, List.countP_cons]
          cases here : s.expandsBeforeInput <;> simp [here] at now ⊢ <;> omega

/-- A run that accepts a tree has read all tokens and come to all vertices of the tree, and of no
other one.
-/
theorem exists_walked_of_accepted {tokens : List τ} {tree : Tree τ} {calls : Nat}
    (accepted : p.Returns tokens ⟨.accepted tree, calls⟩)
    : ∃ u,
        p.Reaches (.initial p.grammar.startSymbol tokens) u
        ∧ p.step u = .halt (.accepted tree) calls
        ∧ u.rest = []
        ∧ u.visited = tree.preorder := by
  obtain ⟨u, reaches, halt⟩ := Ends.exists_halt accepted
  have halts : p.Halts u (.accepted tree) := (halts_of_step halt).1
  have building := Building.of_reaches p.builds_any reaches
  cases halts with
  | accept stack input done =>
      cases building with
      | waiting _ _ none => simp [none] at done
      | complete _ frames _ one =>
          rw [one] at done
          obtain ⟨rfl, _⟩ := List.cons_eq_cons.mp done
          exact ⟨u, reaches, halt, input, by simp [State.visited, one, frames, Frame.visited]⟩

/-- The run that accepts a tree is the walk through it in pre-order. It takes one step for each node
and leaf, and one more; and the vertices to which it has come when its steps start are the
beginnings of the walk, each one vertex longer than the one before. The matcher is asked for the
vertices up to the last leaf: for each leaf, and for each nonterminal that is expanded while there
is input left.
-/
theorem run_is_preorder_walk (p : Parser τ) {tokens : List τ} {tree : Tree τ} {calls : Nat}
    (accepted : p.Returns tokens ⟨.accepted tree, calls⟩)
    : (∀ fuel,
        p.parse fuel tokens
        = if tree.size + 1 ≤ fuel then some ⟨.accepted tree, calls⟩ else none)
      ∧ calls = (tree.preorder.rdropWhile Vertex.isNode).length
      ∧ ∀ fuel ≥ tree.size + 1,
          let steps := p.steps fuel (.initial p.grammar.startSymbol tokens)
          steps.length = tree.size + 1
          ∧ steps.map State.visited = tree.preorder.inits
          ∧ calls = tree.leafCount + (steps.filter State.expandsBeforeInput).length := by
  obtain ⟨u, reaches, halt, input, whole⟩ := exists_walked_of_accepted accepted
  obtain ⟨later, grown, runs⟩ := exists_steps_of_reaches reaches halt
  obtain rfl : tree.preorder = later := whole.symm.trans grown
  rw [Tree.length_preorder] at runs
  have asked : Asked u :=
    reaches.invariant (fun _ _ before move => before.move move) (.initial _ tokens)
  refine ⟨fun fuel => (runs fuel).1, ?_, ?_⟩
  · have called : calls = u.asked.calls := (halts_of_step halt).2
    rw [called, ← whole, ← asked.behind input]
    simp [State.asked, input]
  · intro fuel enough steps
    have states : steps.map State.visited = tree.preorder.inits := by
      rw [(runs fuel).2 enough]
      exact List.map_id _
    have ends : p.run fuel _ = some ⟨.accepted tree, calls⟩ :=
      (runs fuel).1.trans (if_pos enough)
    have counted := calls_of_reaches reaches halt input ends
    rw [whole, Tree.countP_isLeaf_preorder, State.visited_initial, List.countP_nil] at counted
    refine ⟨?_, states, ?_⟩
    · rw [← List.length_map State.visited, states, List.length_inits, Tree.length_preorder]
    · rw [← List.countP_eq_length_filter]
      exact counted.trans (congrArg (· + _) (Nat.zero_add tree.leafCount))

/-- With one node without children in mid-input and one behind the last leaf, and without leaves. -/
theorem run_is_preorder_walk_brackets
    : let p : Parser Value := ⟨.brackets, Grammar.brackets.ownTable, Matcher.asTerm⟩
      let symbol : Value := .nonterm (.text (.ofString "S"))
      let opening : Value := .text (.ofString "(")
      let closing : Value := .text (.ofString ")")
      let tree : Tree Value :=
        .node symbol [.leaf opening, .node symbol [], .leaf closing, .node symbol []]
      let steps := p.steps 6 (.initial p.grammar.startSymbol [opening, closing])
      p.Returns [opening, closing] ⟨.accepted tree, 4⟩
      ∧ p.parse 5 [opening, closing] = none
      ∧ steps.length = 6
      ∧ steps.map State.visited = tree.preorder.inits
      ∧ 4 = tree.leafCount + (steps.filter State.expandsBeforeInput).length
      ∧ p.Returns [] ⟨.accepted (.node symbol []), 0⟩
      ∧ 0 = ((Tree.node (τ := Value) symbol []).preorder.rdropWhile Vertex.isNode).length := by
  intro p symbol opening closing tree steps
  have returned : p.Returns [opening, closing] ⟨.accepted tree, 4⟩ := ⟨6, rfl⟩
  have returned' : p.Returns [] ⟨.accepted (.node symbol []), 0⟩ := ⟨2, rfl⟩
  obtain ⟨parsed, _, walked⟩ := p.run_is_preorder_walk returned
  obtain ⟨count, states, called⟩ := walked 6 (Nat.le_refl 6)
  obtain ⟨_, called', _⟩ := p.run_is_preorder_walk returned'
  exact ⟨returned, parsed 5, count, states, called, returned', called'⟩

end Parser

end PredictiveParsing
