import Mathlib.Logic.Function.Iterate
import PredictiveParsing.Proofs.TreeBuilding

/-! The leaves of a tree are given by a loop over the trees that wait to be visited. It ends for
every tree, after as many turns as the tree has nodes and leaves, and what it gives are the leaves
from left to right, as the recursion on the tree lists them.
-/

namespace PredictiveParsing

variable {τ : Type}

namespace Tree

@[simp] theorem sizeAll_reverse (trees : List (Tree τ))
    : sizeAll trees.reverse = sizeAll trees := by
  induction trees with
  | nil => rfl
  | cons tree trees ih => simp [sizeAll, ih, Nat.add_comm]

theorem sizeAll_eq_zero_iff {trees : List (Tree τ)} : sizeAll trees = 0 ↔ trees = [] := by
  cases trees with
  | nil => simp [sizeAll]
  | cons tree trees => simp [sizeAll, Nat.ne_of_gt tree.size_pos]

/-- By induction on the visit: a node that is visited has its children's tokens in its place. -/
theorem leavesFrom_eq (trees : List (Tree τ)) : leavesFrom trees = frontierAll trees := by
  fun_induction leavesFrom trees with
  | case1 => rfl
  | case2 token pending ih => simp [frontierAll, frontier, ih]
  | case3 symbol children pending ih => simp [frontierAll, frontier, ih]

theorem frontierAll_eq (trees : List (Tree τ)) : frontierAll trees = trees.flatMap frontier := by
  induction trees with
  | nil => rfl
  | cons tree trees ih => simp [frontierAll, ih]

mutual

/-- Each leaf has one token, by recursion on the tree. -/
theorem length_frontier : ∀ tree : Tree τ, tree.frontier.length = tree.leafCount
  | .leaf _ => rfl
  | .node _ children => length_frontierAll children

theorem length_frontierAll
    : ∀ trees : List (Tree τ), (frontierAll trees).length = leafCountAll trees
  | [] => rfl
  | tree :: trees => by
      simp [frontierAll, leafCountAll, length_frontier tree, length_frontierAll trees]

end

/-- A visit from left to right gives the frontier. -/
theorem leaves_eq (tree : Tree τ) : tree.leaves = tree.frontier := by
  simp [leaves, leavesFrom_eq]

end Tree

-----------------------------------------------------------------------------------------
-- The loop over the trees that wait
-----------------------------------------------------------------------------------------

/-- A visit between two turns of the loop. -/
structure Visit (τ : Type) where
  /-- The tokens that were given so far. -/
  given : List τ
  /-- The trees that wait, the next one last. -/
  waiting : List (Tree τ)

namespace Visit

def ofTree (tree : Tree τ) : Visit τ :=
  ⟨[], [tree]⟩

/-- One turn of the loop: a leaf gives its token, and a node makes way for its children, of which
the first one is visited next. If no tree waits, the visit is over.
-/
def turn (v : Visit τ) : Visit τ :=
  match v.waiting.getLast? with
  | none => v
  | some (.leaf token) => ⟨v.given ++ [token], v.waiting.dropLast⟩
  | some (.node _ children) => ⟨v.given, v.waiting.dropLast ++ children.reverse⟩

section Turn

variable (given : List τ) (waiting : List (Tree τ))

/-- A turn at a leaf gives its token. -/
@[simp] theorem turn_leaf (token : τ)
    : turn ⟨given, waiting ++ [.leaf token]⟩ = ⟨given ++ [token], waiting⟩ := by
  simp [turn]

/-- A turn at a node puts the children in its place, so that the first of them is visited next. -/
@[simp] theorem turn_node (symbol : Value) (children : List (Tree τ))
    : turn ⟨given, waiting ++ [.node symbol children]⟩
      = ⟨given, waiting ++ children.reverse⟩ := by
  simp [turn]

end Turn

/-- A visit is over, or the tree that is visited next is a leaf, or it is a node. -/
@[elab_as_elim] theorem nextCases {motive : Visit τ → Prop} (ended : ∀ given, motive ⟨given, []⟩)
    (leaf : ∀ given waiting token, motive ⟨given, waiting ++ [.leaf token]⟩)
    (node : ∀ given waiting symbol children, motive ⟨given, waiting ++ [.node symbol children]⟩)
    (v : Visit τ)
    : motive v := by
  obtain ⟨given, waiting⟩ := v
  rcases List.eq_nil_or_concat' waiting with rfl | ⟨waiting, tree, rfl⟩
  · exact ended given
  · cases tree with
    | leaf token => exact leaf given waiting token
    | node symbol children => exact node given waiting symbol children

/-- What a visit gives in all: the tokens given so far, and those of the trees that wait. -/
def whole (v : Visit τ) : List τ :=
  v.given ++ Tree.leavesFrom v.waiting.reverse

/-- A turn does not change what a visit gives in all. -/
theorem whole_turn (v : Visit τ) : v.turn.whole = v.whole := by
  cases v using nextCases with
  | ended given => rfl
  | leaf given waiting token => simp [whole, Tree.leavesFrom]
  | node given waiting symbol children => simp [whole, Tree.leavesFrom]

/-- A turn takes one node or leaf away from the trees that wait. -/
theorem size_turn (v : Visit τ) : Tree.sizeAll v.turn.waiting = Tree.sizeAll v.waiting - 1 := by
  cases v using nextCases with
  | ended given => rfl
  | leaf given waiting token => simp [Tree.sizeAll, Tree.size]
  | node given waiting symbol children => simp [Tree.sizeAll, Tree.size]

theorem eq_of_ended {v : Visit τ} (ended : v.waiting = []) : v = ⟨v.whole, []⟩ := by
  obtain ⟨given, waiting⟩ := v
  obtain rfl : waiting = [] := ended
  simp [whole, Tree.leavesFrom]

/-- Turns leave what is given in all as it is, by induction on their number. -/
theorem whole_turns (v : Visit τ) (n : Nat) : (turn^[n] v).whole = v.whole := by
  induction n with
  | zero => rfl
  | succ n ih => rw [Function.iterate_succ_apply', whole_turn, ih]

/-- Each turn takes one node or leaf away from those that wait, by induction on the number of turns.
-/
theorem size_turns (v : Visit τ) (n : Nat)
    : Tree.sizeAll (turn^[n] v).waiting = Tree.sizeAll v.waiting - n := by
  induction n with
  | zero => rfl
  | succ n ih => rw [Function.iterate_succ_apply', size_turn, ih, Nat.sub_sub]

end Visit

/-- A visit gives the leaves of a tree from left to right, for every tree: a leaf gives its token, a
node gives what its children give, one after another, and each leaf is given once. The visit is over
after exactly as many turns as the tree has nodes and leaves; until then, the tokens given so far
and those of the trees that wait are all leaves in their order.
-/
theorem Tree.leaves_from_left_to_right (tree : Tree τ)
    : tree.leaves = tree.frontier
      ∧ (∀ token : τ, (leaf token).leaves = [token])
      ∧ (∀ (symbol : Value) (children : List (Tree τ)),
        (node symbol children).leaves = children.flatMap leaves)
      ∧ tree.leaves.length = tree.leafCount
      ∧ Visit.turn^[tree.size] (.ofTree tree) = ⟨tree.leaves, []⟩
      ∧ ∀ n,
          let v := Visit.turn^[n] (.ofTree tree)
          (v.waiting = [] ↔ tree.size ≤ n)
          ∧ v.given ++ leavesFrom v.waiting.reverse = tree.leaves := by
  have whole (n : Nat) : (Visit.turn^[n] (.ofTree tree)).whole = tree.leaves :=
    Visit.whole_turns _ n
  have ended (n : Nat) : (Visit.turn^[n] (.ofTree tree)).waiting = [] ↔ tree.size ≤ n := by
    rw [← sizeAll_eq_zero_iff, Visit.size_turns, Nat.sub_eq_zero_iff_le]
    simp [Visit.ofTree, sizeAll]
  refine ⟨tree.leaves_eq, fun token => leaves_eq _, fun symbol children => ?_, ?_, ?_,
    fun n => ⟨ended n, whole n⟩⟩
  · rw [leaves_eq, frontier, frontierAll_eq, funext leaves_eq]
  · rw [leaves_eq, length_frontier]
  · rw [Visit.eq_of_ended ((ended tree.size).mpr (Nat.le_refl _)), whole]

end PredictiveParsing
