import PredictiveParsing.Proofs.FaultlessRuns

/-! How the stack, the rules that are not complete and the complete trees fit together in every
state that a run reaches, for any table and matcher: the stack holds what is left of the bodies of
these rules, above the end mark, and the leaves of all trees are the tokens that were read.
-/

namespace PredictiveParsing

variable {τ : Type}

/-- The mark of the empty word is no symbol of a body. -/
theorem Symbol.epsilon_not_mem (word : List Symbol) : .epsilon ∉ word.map Symbol.toValue := by
  intro occurs
  obtain ⟨x, _, marked⟩ := List.mem_map.mp occurs
  cases x <;> cases marked

namespace Frame

/-- What is left of the right-hand side, as it is written, from the symbol on for which a tree
comes next.
-/
def ahead (f : Frame τ) : List Value :=
  f.rule.rhs.drop f.children.length

/-- What is left of the right-hand side, as it is written, behind the symbol for which a tree
comes next.
-/
def behind (f : Frame τ) : List Value :=
  f.rule.rhs.drop (f.children.length + 1)

section Next

variable {f : Frame τ} {x : Symbol}

theorem rhs_of_next (next : f.next? = some x) : f.rule.rhs = f.rule.word :=
  Rule.rhs_of_nonempty (List.ne_nil_of_mem (List.mem_of_getElem? next))

theorem length_lt_of_next (next : f.next? = some x) : f.children.length < f.rule.length := by
  obtain ⟨inside, _⟩ := List.getElem?_eq_some_iff.mp next
  simpa [Rule.length, rhs_of_next next, Rule.word] using inside

/-- What is ahead is the next symbol and what is behind it. -/
theorem ahead_of_next (next : f.next? = some x) : f.ahead = x.toValue :: f.behind := by
  obtain ⟨_, here⟩ := List.getElem?_eq_some_iff.mp next
  rw [ahead, List.drop_eq_getElem_cons (length_lt_of_next next), behind]
  simp [rhs_of_next next, Rule.word, here]

/-- Behind the next symbol stands the rest of the body. -/
theorem behind_of_body {r : Rule} {children : List (Tree τ)} {built rest : List Symbol}
    (body : r.body = built ++ x :: rest) (count : children.length = built.length)
    : Frame.behind ⟨r, children⟩ = rest.map Symbol.toValue := by
  rw [behind, rhs_of_next (next?_of_body body count), Rule.word, body, count]
  simp [List.drop_append]

theorem epsilon_not_mem_of_next (next : f.next? = some x) : .epsilon ∉ f.rule.rhs :=
  rhs_of_next next ▸ Symbol.epsilon_not_mem f.rule.body

end Next

end Frame

/-- How the frames, the stack and the complete trees fit together: nothing has been done yet, or
only the end mark is left below a complete tree, or the stack holds what is left of the bodies of
rules that are not complete. In the innermost one the symbol for which a tree comes next is still
on the stack; in the others it is not, since an inner rule has taken its place.
-/
inductive State.Arranged (start : Symbol) (s : State τ) : Prop where
  | untouched (frames : s.frames = []) (stack : s.stack = [start, .endMark]) (done : s.done = [])
    (index : s.index = 0)
  | complete {tree : Tree τ} (frames : s.frames = []) (stack : s.stack = [.endMark])
    (done : s.done = [tree])
  | inside {inner : Frame τ} {outer : List (Frame τ)} (frames : s.frames = inner :: outer)
    (stack : s.stack.map Symbol.toValue
      = inner.ahead ++ outer.flatMap Frame.behind ++ [.endMark])
    (done : s.done = []) (incomplete : ∀ f ∈ s.frames, f.children.length < f.rule.length)

/-- The tokens at the leaves of all trees, those of an outer rule before those of an inner one. -/
def State.leaves (s : State τ) : List τ :=
  s.frames.reverse.flatMap (fun f => Tree.frontierAll f.children) ++ Tree.frontierAll s.done

namespace Parser

variable {p : Parser τ} {Fits : Symbol → Tree τ → Prop} {tokens : List τ} {s t : State τ}

section Context

variable {f : Frame τ} {frames : List (Frame τ)} {x : Symbol} {below : List Symbol}
  {read : List τ}

theorem Context.next_eq (context : p.Context Fits (f :: frames) x below read)
    : f.next? = some x := by
  cases context with
  | frame _ _ body trees => exact Frame.next?_of_body body trees.length_eq.symm

/-- Each frame on the path waits for the tree of some symbol, by induction on the path. -/
theorem Context.exists_next (context : p.Context Fits frames x below read)
    : ∀ f ∈ frames, ∃ y, f.next? = some y := by
  induction context with
  | root => simp
  | frame _ _ body trees ih =>
      exact List.forall_mem_cons.mpr ⟨⟨_, Frame.next?_of_body body trees.length_eq.symm⟩, ih⟩

/-- Below the symbol for whose tree the frames wait, the stack holds what is left of all bodies
behind the symbols for which trees come next. By induction on the path.
-/
theorem Context.below_eq (context : p.Context Fits frames x below read)
    : below.map Symbol.toValue = frames.flatMap Frame.behind ++ [.endMark] := by
  induction context with
  | root => rfl
  | frame _ _ body trees ih =>
      simp [ih, Frame.behind_of_body body trees.length_eq.symm]

/-- The tokens that were read are the leaves of the trees in the frames, the outermost ones first.
By induction on the path.
-/
theorem Context.read_eq (context : p.Context Fits frames x below read)
    : read = frames.reverse.flatMap fun f => Tree.frontierAll f.children := by
  induction context with
  | root => rfl
  | frame _ _ _ _ ih => simp [ih]

end Context

theorem Building.exists_next (building : p.Building Fits tokens s)
    : ∀ f ∈ s.frames, ∃ x, f.next? = some x := by
  cases building with
  | complete _ frames => simp [frames]
  | waiting context => exact context.exists_next

/-- While a tree is being built, the stack is arranged: what the frames wait for tells what it
holds.
-/
theorem Building.arranged (building : p.Building Fits tokens s)
    : s.Arranged p.grammar.startSymbol := by
  have incomplete : ∀ f ∈ s.frames, f.children.length < f.rule.length := by
    intro f present
    obtain ⟨_, next⟩ := building.exists_next f present
    exact Frame.length_lt_of_next next
  cases building with
  | complete _ frames stack done => exact .complete frames stack done
  | @waiting x below read context stack done index =>
      cases waiting : s.frames with
      | nil =>
          rw [waiting] at context
          cases context with
          | root => exact .untouched waiting stack done index
      | cons inner outer =>
          rw [waiting] at context
          have left := Frame.ahead_of_next context.next_eq
          exact .inside waiting (by simp [stack, left, context.below_eq]) done incomplete

/-- While a tree is being built, its leaves are the tokens that were read. -/
theorem Building.leaves_eq (building : p.Building Fits tokens s)
    : s.leaves = tokens.take s.index := by
  cases building with
  | complete _ frames _ done index input =>
      simp [State.leaves, frames, done, index, input]
  | waiting context _ done index input =>
      rw [State.leaves, ← context.read_eq, done]
      simp [index, input, Tree.frontierAll]

theorem Building.exists_endMark (building : p.Building Fits tokens s)
    : ∃ above, s.stack = above ++ [.endMark] := by
  cases building with
  | complete _ _ stack => exact ⟨[], stack⟩
  | @waiting x _ _ context stack =>
      obtain ⟨above, rfl⟩ := context.exists_endMark
      exact ⟨x :: above, stack⟩

/-- A move takes the symbol on top of the stack away, which is not an end mark, and may put others
in its place.
-/
theorem Move.exists_pop (move : p.Move s t)
    : ∃ x below above, s.stack = x :: below ∧ x ≠ .endMark ∧ t.stack = above ++ below := by
  cases move with
  | shift stack => exact ⟨_, _, [], stack, by simp, rfl⟩
  | erase stack => exact ⟨_, _, [], stack, by simp, rfl⟩
  | @expand _ _ _ r stack => exact ⟨_, _, r.body, stack, by simp, rfl⟩

/-- In every state that a run reaches, the stack and the frames fit together: no frame has been
opened yet, or none is left beside a complete tree, or the stack holds what is left of the bodies of
the frames, none of which is complete. The leaves of all trees are the tokens that were read. So the
end mark is always at the bottom of the stack, and no symbol is taken from an empty stack, or leaves
one behind; and the mark of the empty word is neither in a body that a frame has nor on the stack.
-/
theorem stack_holds_open_bodies (p : Parser τ) {tokens : List τ} {s : State τ}
    (reaches : p.Reaches (.initial p.grammar.startSymbol tokens) s)
    : s.Arranged p.grammar.startSymbol
      ∧ s.index ≤ tokens.length
      ∧ s.leaves = tokens.take s.index
      ∧ (∃ above, s.stack = above ++ [.endMark])
      ∧ (∀ t,
        p.Move s t
        → ∃ x below above, s.stack = x :: below ∧ below ≠ [] ∧ t.stack = above ++ below)
      ∧ (∀ f ∈ s.frames, .epsilon ∉ f.rule.rhs)
      ∧ .epsilon ∉ s.stack.map Symbol.toValue := by
  have building := Building.of_reaches p.builds_any reaches
  obtain ⟨above, bottom⟩ := building.exists_endMark
  refine ⟨building.arranged, building.drop_index.1, building.leaves_eq, ⟨above, bottom⟩,
    fun t move => ?_, fun f present => ?_, Symbol.epsilon_not_mem s.stack⟩
  · obtain ⟨x, below, pushed, stack, proper, later⟩ := move.exists_pop
    refine ⟨x, below, pushed, stack, ?_, later⟩
    rintro rfl
    -- the symbol that is taken away would be the end mark at the bottom
    cases above with
    | nil => exact proper (List.cons_eq_cons.mp (stack.symm.trans bottom)).1
    | cons y above => simp [stack] at bottom
  · obtain ⟨_, next⟩ := building.exists_next f present
    exact Frame.epsilon_not_mem_of_next next

end Parser

/-- An opening bracket, a part inside, and an end mark in the place of the closing bracket. -/
def Rule.markedNesting : Rule :=
  let symbol : Value := .text (.ofString "S")
  ⟨symbol, [.term (.text (.ofString "(")), .nonterm symbol, .endMark]⟩

/-- Behind two opening brackets: the inner frame waits for the part inside, which is on the stack,
and of the outer one, which waits for the inner one, only the end mark is.
-/
theorem Parser.stack_holds_open_bodies_markedNesting
    : let opening : Value := .text (.ofString "(")
      let table := Grammar.brackets.ownTable.setCells [(.markedNesting, .term opening)]
      let p : Parser Value := ⟨.brackets, table, Matcher.asTerm⟩
      let symbol : Symbol := .nonterm (.text (.ofString "S"))
      let f : Frame Value := ⟨.markedNesting, [.leaf opening]⟩
      let s : State Value := {
        stack := [symbol, .endMark, .endMark, .endMark], frames := [f, f], done := [], index := 2,
        rest := [opening], calls := 4
      }
      p.Reaches (.initial p.grammar.startSymbol [opening, opening, opening]) s
      ∧ s.Arranged p.grammar.startSymbol
      ∧ f.ahead = [symbol.toValue, .endMark]
      ∧ f.behind = [.endMark]
      ∧ s.leaves = [opening, opening]
      ∧ ∀ t,
          p.Move s t
          → ∃ x below above, s.stack = x :: below ∧ below ≠ [] ∧ t.stack = above ++ below := by
  intro opening table p symbol f s
  have reaches : p.Reaches (.initial p.grammar.startSymbol [opening, opening, opening]) s :=
    .head (move_of_step rfl) (.head (move_of_step rfl) (.head (move_of_step rfl)
      (.head (move_of_step rfl) .refl)))
  obtain ⟨arranged, _, leaves, _, pops, _⟩ := p.stack_holds_open_bodies reaches
  exact ⟨reaches, arranged, rfl, rfl, leaves, pops⟩

end PredictiveParsing
