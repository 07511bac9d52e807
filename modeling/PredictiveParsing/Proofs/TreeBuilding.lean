import Mathlib.Data.List.Forall2
import PredictiveParsing.Proofs.ParserRuns

/-! How a parser assembles a tree, for any table. The frames are a path into the tree that is
being built: each one has the trees of a first part of its rule's body, and the stack has what
is left of all bodies.
-/

namespace PredictiveParsing

variable {τ : Type}

namespace Tree

@[simp] theorem frontierAll_append (trees more : List (Tree τ))
    : frontierAll (trees ++ more) = frontierAll trees ++ frontierAll more := by
  induction trees with
  | nil => rfl
  | cons tree trees ih => simp [frontierAll, ih]

@[simp] theorem frontierAll_singleton (tree : Tree τ) : frontierAll [tree] = tree.frontier := by
  simp [frontierAll]

end Tree

namespace State

variable (s : State τ) (below : List Symbol) (tree : Tree τ) (rest : List τ) (r : Rule)

@[simp] theorem attach_stack : (s.attach below tree).stack = below := rfl

@[simp] theorem attach_frames
    : (s.attach below tree).frames = (Frame.attach tree s.frames).1 := rfl

@[simp] theorem attach_done
    : (s.attach below tree).done = s.done ++ (Frame.attach tree s.frames).2 := rfl

@[simp] theorem attach_index : (s.attach below tree).index = s.index := rfl

@[simp] theorem attach_rest : (s.attach below tree).rest = s.rest := rfl

@[simp] theorem advance_stack : (s.advance rest).stack = s.stack := rfl

@[simp] theorem advance_frames : (s.advance rest).frames = s.frames := rfl

@[simp] theorem advance_done : (s.advance rest).done = s.done := rfl

@[simp] theorem advance_index : (s.advance rest).index = s.index + 1 := rfl

@[simp] theorem advance_rest : (s.advance rest).rest = rest := rfl

@[simp] theorem expand_stack : (s.expand below r).stack = r.body ++ below := rfl

@[simp] theorem expand_frames : (s.expand below r).frames = ⟨r, []⟩ :: s.frames := rfl

@[simp] theorem expand_done : (s.expand below r).done = s.done := rfl

@[simp] theorem expand_index : (s.expand below r).index = s.index := rfl

@[simp] theorem expand_rest : (s.expand below r).rest = s.rest := rfl

end State

namespace Frame

variable {r : Rule} {built more : List Symbol} {s : Symbol} {children : List (Tree τ)}

theorem length_rhs (body : r.body = built ++ s :: more)
    : r.length = built.length + 1 + more.length := by
  simp [Rule.length, Rule.rhs, Rule.word, body]
  omega

/-- The tree of the last symbol of a body completes the tree of the rule. -/
theorem attach_last (body : r.body = built ++ [s]) (count : children.length = built.length)
    (tree : Tree τ) (frames : List (Frame τ))
    : attach tree (⟨r, children⟩ :: frames)
      = attach (.node r.lhs (children ++ [tree])) frames := by
  have complete : isComplete ⟨r, children ++ [tree]⟩ = true := by
    simp [isComplete, length_rhs body, count]
  simp only [attach, push, complete, if_true, Frame.tree]

/-- The tree of any other symbol is kept until the next one comes. -/
theorem attach_inner {next : Symbol} (body : r.body = built ++ s :: next :: more)
    (count : children.length = built.length) (tree : Tree τ) (frames : List (Frame τ))
    : attach tree (⟨r, children⟩ :: frames) = (⟨r, children ++ [tree]⟩ :: frames, []) := by
  have incomplete : isComplete ⟨r, children ++ [tree]⟩ = false := by
    simp [isComplete, length_rhs body, count]
  simp [attach, push, incomplete]

end Frame

namespace Parser

def Stored (p : Parser τ) (name : Value) (r : Rule) : Prop :=
  ∃ la, p.table.cell? (.nonterm name) la = some r

theorem cell_of_choose {p : Parser τ} {n la : Value} {found : Option Rule}
    (chosen : p.choose n la = .ok found)
    : p.table.cell? n la = found := by
  obtain ⟨_, _, rest⟩ := Fault.bind_eq_ok_iff.mp chosen
  obtain ⟨_, _, found⟩ := Fault.bind_eq_ok_iff.mp rest
  exact Except.ok.inj found

/-- The rule of a cell is chosen if its nonterminal and its lookahead can be looked up. -/
theorem choose_eq_cell {p : Parser τ} {n la : Value} (hn : n.hashable = true)
    (hla : la.hashable = true)
    : p.choose n la = .ok (p.table.cell? n la) := by
  simp [choose, Value.checkHashable, hn, hla, bind, Except.bind]

theorem stored_of_choose {p : Parser τ} {name la : Value} {r : Rule}
    (chosen : p.choose (.nonterm name) la = .ok (some r))
    : p.Stored name r :=
  ⟨la, cell_of_choose chosen⟩

/-- A tree has been handed on to these frames and complete trees, for the symbol on top of the
stack, and its tokens are read.
-/
structure Delivered (tree : Tree τ) (frames : List (Frame τ)) (done : List (Tree τ))
    (below : List Symbol) (rest : List τ) (t : State τ)
    : Prop where
  stack : t.stack = below
  input : t.rest = rest
  waiting : t.frames = (Frame.attach tree frames).1
  complete : t.done = done ++ (Frame.attach tree frames).2

section Delivered

variable {r : Rule} {children : List (Tree τ)} {tree : Tree τ} {frames : List (Frame τ)}
  {done : List (Tree τ)} {below : List Symbol} {rest : List τ} {t : State τ}
  {built : List Symbol} {s : Symbol}

/-- With the tree of the last symbol of a body, the tree of the rule is handed on. -/
theorem Delivered.last (delivered : Delivered tree (⟨r, children⟩ :: frames) done below rest t)
    (split : r.body = built ++ [s]) (count : children.length = built.length)
    : Delivered (.node r.lhs (children ++ [tree])) frames done below rest t := by
  have waiting := delivered.waiting
  have complete := delivered.complete
  rw [Frame.attach_last split count] at waiting complete
  exact ⟨delivered.stack, delivered.input, waiting, complete⟩

/-- With the tree of any other symbol of a body, the rule waits for the next one. -/
theorem Delivered.inner (delivered : Delivered tree (⟨r, children⟩ :: frames) done below rest t)
    {next : Symbol} {more : List Symbol} (split : r.body = built ++ s :: next :: more)
    (count : children.length = built.length)
    : t.frames = ⟨r, children ++ [tree]⟩ :: frames ∧ t.done = done := by
  have waiting := delivered.waiting
  have complete := delivered.complete
  rw [Frame.attach_inner split count] at waiting complete
  exact ⟨waiting, by simpa using complete⟩

end Delivered

-----------------------------------------------------------------------------------------
-- The frames are a path into the tree that is being built
-----------------------------------------------------------------------------------------

/-- The trees that a parser builds fit their symbols: a leaf whose token matches a terminal, and
a node with fitting children for a stored rule.
-/
structure Builds (p : Parser τ) (Fits : Symbol → Tree τ → Prop) : Prop where
  leaf
    : ∀ {name focus : Value} {token : τ},
        p.matcher token = .ok focus
        → focus.key = (Value.term name).key
        → Fits (.term name) (.leaf token)
  empty
    : ∀ {name : Value} {r : Rule},
        p.Stored name r → r.body = [] → Fits (.nonterm name) (.node (.nonterm name) [])
  node
    : ∀ {name : Value} {r : Rule} {children : List (Tree τ)},
        p.Stored name r
        → r.body ≠ []
        → List.Forall₂ Fits r.body children
        → Fits (.nonterm name) (.node r.lhs children)

/-- The frames wait for the tree of a symbol, behind which the stack goes on, and the leaves of
their trees are these tokens.
-/
inductive Context (p : Parser τ) (Fits : Symbol → Tree τ → Prop)
    : List (Frame τ) → Symbol → List Symbol → List τ → Prop where
  | root : Context p Fits [] p.grammar.startSymbol [.endMark] []
  | frame {name : Value} {r : Rule} {children : List (Tree τ)} {built rest : List Symbol}
    {s : Symbol} {frames : List (Frame τ)} {below : List Symbol} {read : List τ}
    (outer : Context p Fits frames (.nonterm name) below read) (stored : p.Stored name r)
    (body : r.body = built ++ s :: rest) (trees : List.Forall₂ Fits built children)
    : Context p Fits (⟨r, children⟩ :: frames) s (rest ++ below)
        (read ++ Tree.frontierAll children)

/-- A fitting tree completes the whole tree, or the frames wait for the tree of the next symbol
on the stack. By induction on the path: a frame that the tree completes hands on its own tree.
-/
theorem Context.attach {p : Parser τ} {Fits : Symbol → Tree τ → Prop} (builds : p.Builds Fits)
    {frames : List (Frame τ)} {s : Symbol} {below : List Symbol} {read : List τ}
    (context : p.Context Fits frames s below read) {tree : Tree τ} (fits : Fits s tree)
    : (∃ whole,
        Frame.attach tree frames = ([], [whole])
        ∧ below = [.endMark]
        ∧ Fits p.grammar.startSymbol whole
        ∧ whole.frontier = read ++ tree.frontier)
      ∨ ∃ waiting next more,
          Frame.attach tree frames = (waiting, [])
          ∧ below = next :: more
          ∧ p.Context Fits waiting next more (read ++ tree.frontier) := by
  induction context generalizing tree with
  | root => exact Or.inl ⟨tree, rfl, rfl, fits, by simp⟩
  | @frame name r children built rest s frames below read outer stored body trees ih =>
      have grown : List.Forall₂ Fits (built ++ [s]) (children ++ [tree]) :=
        List.rel_append trees (.cons fits .nil)
      have count := trees.length_eq
      cases rest with
      | nil =>
          -- the tree of the frame is handed to the outer frames
          have node : Fits (.nonterm name) (.node r.lhs (children ++ [tree])) :=
            builds.node stored (by simp [body]) (body ▸ grown)
          rw [Frame.attach_last body count.symm, List.nil_append]
          simpa [Tree.frontier] using ih node
      | cons next rest =>
          have split : r.body = (built ++ [s]) ++ next :: rest := by simp [body]
          refine Or.inr ⟨⟨r, children ++ [tree]⟩ :: frames, next, rest ++ below, ?_, rfl, ?_⟩
          · exact Frame.attach_inner body count.symm tree frames
          · simpa using Context.frame outer stored split grown

/-- What holds between two steps: the frames wait for the tree of the symbol on top of the
stack, or the tree of the start symbol is complete and only the end mark is left. The tokens
that were read are the leaves so far.
-/
inductive Building (p : Parser τ) (Fits : Symbol → Tree τ → Prop) (tokens : List τ)
    (s : State τ) : Prop where
  | waiting {next : Symbol} {below : List Symbol} {read : List τ}
    (context : p.Context Fits s.frames next below read) (stack : s.stack = next :: below)
    (done : s.done = []) (index : s.index = read.length) (input : tokens = read ++ s.rest)
  | complete {tree : Tree τ} (fits : Fits p.grammar.startSymbol tree) (frames : s.frames = [])
    (stack : s.stack = [.endMark]) (done : s.done = [tree])
    (index : s.index = tree.frontier.length) (input : tokens = tree.frontier ++ s.rest)

/-- At first the start symbol is on top of the stack, and no frame waits. -/
theorem Building.initial (p : Parser τ) (Fits : Symbol → Tree τ → Prop) (tokens : List τ)
    : p.Building Fits tokens (.initial p.grammar.startSymbol tokens) :=
  .waiting .root rfl rfl rfl rfl

/-- Handing on a fitting tree for the symbol on top of the stack keeps the state in order. -/
theorem Context.building {p : Parser τ} {Fits : Symbol → Tree τ → Prop}
    (builds : p.Builds Fits) {tokens read : List τ} {s t : State τ} {next : Symbol}
    {below : List Symbol} (context : p.Context Fits s.frames next below read)
    (done : s.done = []) {tree : Tree τ} (fits : Fits next tree) (stack : t.stack = below)
    (frames : t.frames = (Frame.attach tree s.frames).1)
    (trees : t.done = s.done ++ (Frame.attach tree s.frames).2)
    (index : t.index = (read ++ tree.frontier).length)
    (input : tokens = read ++ tree.frontier ++ t.rest)
    : p.Building Fits tokens t := by
  rcases context.attach builds fits with
    ⟨whole, attached, rfl, fitting, leaves⟩ | ⟨waiting, top, more, attached, rfl, going⟩
  · rw [attached] at frames trees
    rw [done, List.nil_append] at trees
    exact .complete fitting frames stack trees (leaves ▸ index) (leaves ▸ input)
  · rw [attached] at frames trees
    rw [done, List.nil_append] at trees
    exact .waiting (frames ▸ going) stack trees index input

/-- Every move keeps the state in order: a terminal that is read has its leaf, an empty rule has
its node, and the body of another rule opens a frame without trees.
-/
theorem Building.move {p : Parser τ} {Fits : Symbol → Tree τ → Prop} (builds : p.Builds Fits)
    {tokens : List τ} {s t : State τ} (building : p.Building Fits tokens s) (move : p.Move s t)
    : p.Building Fits tokens t := by
  cases building with
  | @complete tree fits frames stack done index input =>
      cases move with
      | shift top => simp [stack] at top
      | erase top => simp [stack] at top
      | expand top => simp [stack] at top
  | @waiting next below read context stack done index input =>
      cases move with
      | @shift name focus under token rest top tokens' seen matched =>
          obtain ⟨rfl, rfl⟩ := List.cons_eq_cons.mp (stack.symm.trans top)
          apply context.building builds done (builds.leaf seen matched) rfl rfl rfl
          · simp [index, Tree.frontier]
          · simp [input, tokens', Tree.frontier]
      | @erase name focus under r top seen chosen empty =>
          obtain ⟨rfl, rfl⟩ := List.cons_eq_cons.mp (stack.symm.trans top)
          apply context.building builds done (builds.empty (stored_of_choose chosen) empty)
            rfl rfl rfl
          · simp [index, Tree.frontier, Tree.frontierAll]
          · simp [input, Tree.frontier, Tree.frontierAll]
      | @expand name focus under r top seen chosen nonempty =>
          obtain ⟨rfl, rfl⟩ := List.cons_eq_cons.mp (stack.symm.trans top)
          obtain ⟨first, rest, body⟩ := List.exists_cons_of_ne_nil nonempty
          have split : r.body = [] ++ first :: rest := body
          have opened := Context.frame context (stored_of_choose chosen) split .nil
          refine .waiting opened ?_ done ?_ ?_
          · simp [body]
          · simp [index, Tree.frontierAll]
          · simp [input, Tree.frontierAll]

/-- In every state that a parse reaches, a tree is being built or complete, since every move keeps
it so.
-/
theorem Building.of_reaches {p : Parser τ} {Fits : Symbol → Tree τ → Prop}
    (builds : p.Builds Fits) {tokens : List τ} {t : State τ}
    (reaches : p.Reaches (.initial p.grammar.startSymbol tokens) t)
    : p.Building Fits tokens t :=
  reaches.invariant (fun _ _ building move => building.move builds move)
    (Building.initial p Fits tokens)

/-- What is left of the input is what stands behind the tokens that were read. -/
theorem Building.drop_index {p : Parser τ} {Fits : Symbol → Tree τ → Prop} {tokens : List τ}
    {s : State τ} (building : p.Building Fits tokens s)
    : s.index ≤ tokens.length ∧ s.rest = tokens.drop s.index := by
  cases building with
  | waiting _ _ _ index input => simp [index, input]
  | complete _ _ _ _ index input => simp [index, input]

/-- The rest of a rejection are the tokens behind the place where it happens. -/
theorem Builds.rejected {p : Parser τ} {Fits : Symbol → Tree τ → Prop} (builds : p.Builds Fits)
    {tokens remaining : List τ} {index calls : Nat} {expected : Symbol}
    (rejected : p.Returns tokens ⟨.rejected index expected remaining, calls⟩)
    : index ≤ tokens.length ∧ remaining = tokens.drop index := by
  obtain ⟨t, reaches, halts, _⟩ := Ends.exists_halts rejected
  have building := Building.of_reaches builds reaches
  cases halts with
  | reject => exact building.drop_index

/-- An accepted tree fits the start symbol, and its leaves are the tokens. -/
theorem Builds.accepted {p : Parser τ} {Fits : Symbol → Tree τ → Prop} (builds : p.Builds Fits)
    {tokens : List τ} {tree : Tree τ} {calls : Nat}
    (accepted : p.Returns tokens ⟨.accepted tree, calls⟩)
    : Fits p.grammar.startSymbol tree ∧ tree.frontier = tokens := by
  obtain ⟨t, reaches, halts, _⟩ := Ends.exists_halts accepted
  have building := Building.of_reaches builds reaches
  cases halts with
  | accept stack input done =>
      cases building with
      | waiting context top none => simp [none] at done
      | complete fits frames top one index read =>
          rw [one] at done
          obtain ⟨rfl, _⟩ := List.cons_eq_cons.mp done
          exact ⟨fits, by simp [read, input]⟩

end Parser

end PredictiveParsing
