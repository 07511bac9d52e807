import PredictiveParsing.Rule

/-! Parse trees, their leaves and their size. -/

namespace PredictiveParsing

/-- A parse tree over tokens: a token that was read, or a symbol with the trees below it. -/
inductive Tree (τ : Type) where
  | leaf (token : τ)
  | node (symbol : Value) (children : List (Tree τ))

namespace Tree

variable {τ : Type}

def children : Tree τ → List (Tree τ)
  | .leaf _ => []
  | .node _ children => children

/-- A node that derives the empty word by an empty rule; leaves are not asked. -/
def isEmpty? : Tree τ → Option Bool
  | .leaf _ => none
  | .node _ children => some children.isEmpty

mutual

/-- The number of nodes and leaves. -/
def size : Tree τ → Nat
  | .leaf _ => 1
  | .node _ children => sizeAll children + 1

def sizeAll : List (Tree τ) → Nat
  | [] => 0
  | tree :: trees => tree.size + sizeAll trees

end

mutual

/-- The tokens at the leaves from left to right. -/
def frontier : Tree τ → List τ
  | .leaf token => [token]
  | .node _ children => frontierAll children

def frontierAll : List (Tree τ) → List τ
  | [] => []
  | tree :: trees => tree.frontier ++ frontierAll trees

end

/-- The size of several trees one after another. -/
@[simp] theorem sizeAll_append (trees more : List (Tree τ))
    : sizeAll (trees ++ more) = sizeAll trees + sizeAll more := by
  induction trees with
  | nil => simp [sizeAll]
  | cons tree trees ih => simp [sizeAll, ih, Nat.add_assoc]

/-- A tree has a node or a leaf. -/
theorem size_pos (tree : Tree τ) : 0 < tree.size := by
  cases tree <;> simp [size]

/-- The tokens of trees that wait to be visited, the next one first. -/
def leavesFrom : List (Tree τ) → List τ
  | [] => []
  | .leaf token :: pending => token :: leavesFrom pending
  | .node _ children :: pending => leavesFrom (children ++ pending)
termination_by trees => sizeAll trees
decreasing_by
  · simp only [sizeAll, size]
    omega
  · simp only [sizeAll_append, sizeAll, size]
    omega

/-- The tokens at the leaves in the order of a visit from left to right. -/
def leaves (tree : Tree τ) : List τ :=
  leavesFrom [tree]

mutual

def nodeCount : Tree τ → Nat
  | .leaf _ => 0
  | .node _ children => nodeCountAll children + 1

def nodeCountAll : List (Tree τ) → Nat
  | [] => 0
  | tree :: trees => tree.nodeCount + nodeCountAll trees

end

mutual

def leafCount : Tree τ → Nat
  | .leaf _ => 1
  | .node _ children => leafCountAll children

def leafCountAll : List (Tree τ) → Nat
  | [] => 0
  | tree :: trees => tree.leafCount + leafCountAll trees

end

mutual

/-- The number of nodes without children. -/
def emptyCount : Tree τ → Nat
  | .leaf _ => 0
  | .node _ [] => 1
  | .node _ (child :: children) => child.emptyCount + emptyCountAll children

def emptyCountAll : List (Tree τ) → Nat
  | [] => 0
  | tree :: trees => tree.emptyCount + emptyCountAll trees

end

mutual

/-- The number of nodes and leaves on a longest path from the root. -/
def depth : Tree τ → Nat
  | .leaf _ => 1
  | .node _ children => depthAll children + 1

def depthAll : List (Tree τ) → Nat
  | [] => 0
  | tree :: trees => max tree.depth (depthAll trees)

end

mutual

/-- Two trees over values are the same when they have the same shape and values that count as
one in the same places.
-/
def same : Tree Value → Tree Value → Bool
  | .leaf a, .leaf b => decide (a.key = b.key)
  | .node a as, .node b bs => decide (a.key = b.key) && sameAll as bs
  | _, _ => false

def sameAll : List (Tree Value) → List (Tree Value) → Bool
  | [], [] => true
  | a :: as, b :: bs => same a b && sameAll as bs
  | _, _ => false

end

end Tree

end PredictiveParsing
