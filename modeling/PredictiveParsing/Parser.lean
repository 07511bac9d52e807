import PredictiveParsing.Table
import PredictiveParsing.Tree

/-! The predictive parser: a stack of expected symbols, a stack of rules whose trees are not
complete yet, and one token of lookahead.
-/

namespace PredictiveParsing

/-- A parser: a grammar for its start symbol, any table, and a matcher that gives the terminal
of a token.
-/
structure Parser (τ : Type) where
  grammar : Grammar
  table : Table
  matcher : τ → Except Fault Value

/-- A chosen rule and the trees of the symbols of its body that are complete, from left to
right.
-/
structure Frame (τ : Type) where
  rule : Rule
  children : List (Tree τ)

/-- What a parser knows between two steps. -/
structure State (τ : Type) where
  /-- The symbols expected, the next one first and the end mark last. -/
  stack : List Symbol
  /-- The rules that are not complete, the innermost first. -/
  frames : List (Frame τ)
  /-- The complete trees that belong to no rule. -/
  done : List (Tree τ)
  /-- The number of tokens read. -/
  index : Nat
  /-- The tokens that are not read yet. -/
  rest : List τ
  /-- How often the matcher was asked. -/
  calls : Nat

inductive Outcome (τ : Type) where
  /-- All tokens are the leaves of a tree. -/
  | accepted (tree : Tree τ)
  /-- Another symbol was expected behind the first `index` tokens. -/
  | rejected (index : Nat) (expected : Symbol) (remaining : List τ)
  /-- The matcher or a look-up failed. -/
  | failed (fault : Fault)

inductive Step (τ : Type) where
  | next (state : State τ)
  | halt (outcome : Outcome τ) (calls : Nat)

/-- The end of a parse, and how often the matcher was asked. -/
structure Finished (τ : Type) where
  outcome : Outcome τ
  calls : Nat

variable {τ : Type}

namespace Frame

def push (f : Frame τ) (tree : Tree τ) : Frame τ :=
  { f with children := f.children ++ [tree] }

def isComplete (f : Frame τ) : Bool :=
  f.children.length == f.rule.length

def tree (f : Frame τ) : Tree τ :=
  .node f.rule.lhs f.children

/-- Hands a tree to the innermost rule. A rule that it completes hands its own tree on; what
is left over belongs to no rule.
-/
def attach (tree : Tree τ) : List (Frame τ) → List (Frame τ) × List (Tree τ)
  | [] => ([], [tree])
  | f :: frames =>
      if (f.push tree).isComplete then attach (f.push tree).tree frames
      else (f.push tree :: frames, [])

end Frame

namespace State

def initial (start : Symbol) (tokens : List τ) : State τ where
  stack := [start, .endMark]
  frames := []
  done := []
  index := 0
  rest := tokens
  calls := 0

/-- Hands on the tree of the symbol on top of the stack, which leaves the stack. -/
def attach (s : State τ) (below : List Symbol) (tree : Tree τ) : State τ :=
  let (frames, done) := Frame.attach tree s.frames
  { s with stack := below, frames, done := s.done ++ done }

def advance (s : State τ) (rest : List τ) : State τ :=
  { s with index := s.index + 1, rest }

/-- Replaces the symbol on top of the stack by the body of a rule. -/
def expand (s : State τ) (below : List Symbol) (r : Rule) : State τ :=
  { s with stack := r.body ++ below, frames := ⟨r, []⟩ :: s.frames }

/-- Halts where a symbol was expected. If that symbol cannot be written, this is the fault. -/
def reject (s : State τ) (expected : Symbol) : Step τ :=
  match expected.toValue.display with
  | .ok _ => .halt (.rejected s.index expected s.rest) s.calls
  | .error fault => .halt (.failed fault) s.calls

end State

namespace Parser

/-- The parser of a grammar, with the table of its computed sets. -/
def ofGrammar (g : Grammar) (matcher : τ → Except Fault Value) : Parser τ :=
  let p := Predictor.ofGrammar g
  ⟨g, g.table p.first p.follow, matcher⟩

/-- The terminal of the next token, or the end mark behind the last one. -/
def lookahead (p : Parser τ) : List τ → Except Fault Value
  | [] => .ok .endMark
  | token :: _ => p.matcher token

/-- The rule of a cell, provided that its nonterminal and its lookahead can be looked up. -/
def choose (p : Parser τ) (nonterm lookahead : Value) : Except Fault (Option Rule) := do
  nonterm.checkHashable
  lookahead.checkHashable
  .ok (p.table.cell? nonterm lookahead)

/-- A step with the end mark on top of the stack: the parse is over. -/
def stepEnd (s : State τ) : Step τ :=
  match s.rest with
  | [] =>
      match s.done with
      | tree :: _ => .halt (.accepted tree) s.calls
      | [] => .halt (.failed .noTree) s.calls
  | _ :: _ => s.reject .endMark

/-- A step with a terminal on top of the stack: the next token has to match it. -/
def stepTerm (s : State τ) (focus name : Value) (below : List Symbol) : Step τ :=
  match s.rest with
  | [] => s.reject (.term name)
  | token :: rest =>
      if focus.key = (Value.term name).key then .next ((s.attach below (.leaf token)).advance rest)
      else s.reject (.term name)

/-- A step with a nonterminal on top of the stack: the table chooses a rule. -/
def stepNonterm (p : Parser τ) (s : State τ) (focus name : Value) (below : List Symbol)
    : Step τ :=
  match p.choose (.nonterm name) focus with
  | .error fault => .halt (.failed fault) s.calls
  | .ok none => s.reject (.nonterm name)
  | .ok (some r) =>
      if r.isEmpty then .next (s.attach below (.node (.nonterm name) []))
      else .next (s.expand below r)

/-- One step. The matcher is asked for the next token, if there is one, whatever is on top of
the stack.
-/
def step (p : Parser τ) (s : State τ) : Step τ :=
  let s := { s with calls := s.calls + (s.rest.take 1).length }
  match p.lookahead s.rest with
  | .error fault => .halt (.failed fault) s.calls
  | .ok focus =>
      match s.stack with
      | [] => .halt (.failed .noTree) s.calls
      | .endMark :: _ => stepEnd s
      | .term name :: below => stepTerm s focus name below
      | .nonterm name :: below => p.stepNonterm s focus name below

/-- Steps until the parse ends, but at most `fuel` times. -/
def run (p : Parser τ) : Nat → State τ → Option (Finished τ)
  | 0, _ => none
  | fuel + 1, s =>
      match p.step s with
      | .halt outcome calls => some ⟨outcome, calls⟩
      | .next s => p.run fuel s

def parse (p : Parser τ) (fuel : Nat) (tokens : List τ) : Option (Finished τ) :=
  p.run fuel (.initial p.grammar.startSymbol tokens)

/-- The steps of a parse come to an end. -/
def Returns (p : Parser τ) (tokens : List τ) (result : Finished τ) : Prop :=
  ∃ fuel, p.parse fuel tokens = some result

end Parser

end PredictiveParsing
