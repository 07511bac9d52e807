import PredictiveParsing.Proofs.AcceptedTrees

/-! Parses without faults: with a matcher that never fails and gives values that can be looked up,
and with texts as the names of all symbols, a parse that ends has accepted or rejected, unless it
finds no tree at an end mark of a rule's body.
-/

namespace PredictiveParsing

variable {τ : Type}

namespace Symbol

def isNamed : Symbol → Bool
  | .nonterm (.text _) | .term (.text _) => true
  | _ => false

variable {x : Symbol}

theorem exists_text_of_isNamed (named : x.isNamed = true)
    : ∃ name, x = .nonterm (.text name) ∨ x = .term (.text name) := by
  unfold isNamed at named
  split at named
  · exact ⟨_, Or.inl rfl⟩
  · exact ⟨_, Or.inr rfl⟩
  · cases named

theorem hashable_of_isNamed (named : x.isNamed = true) : x.toValue.hashable = true := by
  obtain ⟨name, rfl | rfl⟩ := exists_text_of_isNamed named <;> rfl

theorem exists_display_of_isNamed (named : x.isNamed = true)
    : ∃ shown, x.toValue.display = .ok shown := by
  obtain ⟨name, rfl | rfl⟩ := exists_text_of_isNamed named <;> exact ⟨_, rfl⟩

/-- A declared symbol has a text as its name, since only texts are declared. -/
theorem Declared.isNamed {nonterms terms : List Text} (declared : x.Declared nonterms terms)
    : x.isNamed = true := by
  cases x with
  | nonterm name =>
      obtain ⟨n, _, rfl⟩ := declared
      rfl
  | term name =>
      obtain ⟨t, _, rfl⟩ := declared
      rfl
  | endMark => exact False.elim declared

theorem Declared.hashable {nonterms terms : List Text} (declared : x.Declared nonterms terms)
    : x.toValue.hashable = true :=
  hashable_of_isNamed declared.isNamed

end Symbol

namespace Table

/-- The nonterminals and terminals in the bodies of the rules that a table holds have texts as their
names. End marks may stand beside them.
-/
def TextNamed (t : Table) : Prop :=
  ∀ r, t.Holds r → ∀ x ∈ r.body, x = .endMark ∨ x.isNamed = true

/-- The rules that a table holds have no end marks in their bodies, and texts as the names of the
symbols there.
-/
def Named (t : Table) : Prop :=
  ∀ r, t.Holds r → ∀ x ∈ r.body, x.isNamed = true

theorem Named.textNamed {t : Table} (named : t.Named) : t.TextNamed :=
  fun r held x occurs => Or.inr (named r held x occurs)

/-- Without end marks, what has texts as names has names. -/
theorem TextNamed.named {t : Table} (texts : t.TextNamed)
    (unmarked : ∀ r, t.Holds r → .endMark ∉ r.body)
    : t.Named := by
  intro r held x occurs
  refine (texts r held x occurs).resolve_left ?_
  rintro rfl
  exact unmarked r held occurs

end Table

/-- In a table that is filled from a grammar, all rules have texts as names and no end marks. -/
theorem Grammar.named_table (g : Grammar) (first follow : SetMap)
    : (g.table first follow).Named := by
  rintro r ⟨n, la, cell⟩ x occurs
  exact ((g.rules_declared r (rule_of_cell cell).1).2 x occurs).isNamed

def Frame.next? (f : Frame τ) : Option Symbol :=
  f.rule.body[f.children.length]?

/-- With a tree for each symbol before it, a symbol of the body is the next one. -/
theorem Frame.next?_of_body {r : Rule} {children : List (Tree τ)} {built rest : List Symbol}
    {x : Symbol} (body : r.body = built ++ x :: rest) (count : children.length = built.length)
    : Frame.next? ⟨r, children⟩ = some x := by
  simp [Frame.next?, body, count]

namespace Parser

variable {p : Parser τ}

/-- The matcher never fails and gives values that can be looked up. -/
def Total (p : Parser τ) : Prop :=
  ∀ token, ∃ focus, p.matcher token = .ok focus ∧ focus.hashable = true

/-- With a matcher that never fails there is always a lookahead: the terminal of the next token, or
the end mark.
-/
theorem Total.exists_lookahead (total : p.Total) (tokens : List τ)
    : ∃ focus, p.lookahead tokens = .ok focus ∧ focus.hashable = true := by
  cases tokens with
  | nil => exact ⟨.endMark, rfl, rfl⟩
  | cons token rest => exact total token

variable {Fits : Symbol → Tree τ → Prop} {tokens : List τ} {s : State τ}

/-- What is on top of the stack of a state in order: a symbol with a name, an end mark of the body
of the innermost rule, or the end mark below the complete tree.
-/
inductive Top (p : Parser τ) (s : State τ) : Symbol → List Symbol → Prop where
  | named {x : Symbol} {below : List Symbol} (name : x.isNamed = true) : Top p s x below
  | body {f : Frame τ} {frames : List (Frame τ)} {below : List Symbol}
    (frames : s.frames = f :: frames) (held : p.table.Holds f.rule)
    (next : f.next? = some .endMark) (inner : below ≠ []) (none : s.done = [])
    : Top p s .endMark below
  | bottom {tree : Tree τ} (frames : s.frames = []) (complete : s.done = [tree])
    : Top p s .endMark []

/-- Below the symbol for whose tree the frames wait, the end mark is at the bottom of the stack. By
induction on the path.
-/
theorem Context.exists_endMark {frames : List (Frame τ)} {x : Symbol} {below : List Symbol}
    {read : List τ} (context : p.Context Fits frames x below read)
    : ∃ above, below = above ++ [.endMark] := by
  induction context with
  | root => exact ⟨[], rfl⟩
  | @frame name r children built rest _ _ _ _ _ _ _ _ ih =>
      obtain ⟨above, rfl⟩ := ih
      exact ⟨rest ++ above, (List.append_assoc rest above _).symm⟩

theorem Context.below_ne_nil {frames : List (Frame τ)} {x : Symbol} {below : List Symbol}
    {read : List τ} (context : p.Context Fits frames x below read)
    : below ≠ [] := by
  obtain ⟨above, rfl⟩ := context.exists_endMark
  simp

/-- The symbol for whose tree the frames wait is the start symbol or stands in a body. -/
theorem Building.top (texts : p.table.TextNamed) (building : p.Building Fits tokens s)
    : ∃ x below, s.stack = x :: below ∧ p.Top s x below := by
  cases building with
  | complete _ frames stack done => exact ⟨_, _, stack, .bottom frames done⟩
  | @waiting x below read context stack none =>
      refine ⟨x, below, stack, ?_⟩
      have inner := context.below_ne_nil
      generalize waiting : s.frames = frames at context
      cases context with
      | root => exact .named rfl
      | @frame name r children built rest _ frames _ _ _ stored body trees =>
          obtain ⟨la, cell⟩ := stored
          have held : p.table.Holds r := ⟨_, la, cell⟩
          rcases texts r held x (by simp [body]) with rfl | name
          · exact .body waiting held (Frame.next?_of_body body trees.length_eq.symm) inner none
          · exact .named name

/-- An end mark is on top of the stack that stands in the body of the innermost rule. -/
def AtBodyMark (p : Parser τ) (s : State τ) : Prop :=
  ∃ f frames below,
    s.frames = f :: frames
    ∧ p.table.Holds f.rule
    ∧ f.next? = some .endMark
    ∧ s.stack = .endMark :: below

theorem Top.exists_display {x : Symbol} {below : List Symbol} (top : p.Top s x below)
    : ∃ shown, x.toValue.display = .ok shown := by
  cases top with
  | named name => exact Symbol.exists_display_of_isNamed name
  | body | bottom => exact ⟨_, rfl⟩

/-- A halting step of a state in order accepts or rejects, or it finds no tree at an end mark of a
body: what is looked up or written is a value of the matcher or has a name.
-/
theorem Building.outcome_of_halts (texts : p.table.TextNamed) (total : p.Total)
    (building : p.Building Fits tokens s) {outcome : Outcome τ} (halts : p.Halts s outcome)
    : (∃ tree, outcome = .accepted tree)
      ∨ (∃ index expected, outcome = .rejected index expected (tokens.drop index))
      ∨ outcome = .failed .noTree ∧ s.rest = [] ∧ p.AtBodyMark s := by
  obtain ⟨x, under, stack, top⟩ := building.top texts
  obtain ⟨focus, known, hashable⟩ := total.exists_lookahead s.rest
  cases halts with
  | @accept _ tree => exact Or.inl ⟨tree, rfl⟩
  | @reject expected =>
      refine Or.inr (Or.inl ⟨s.index, expected, ?_⟩)
      rw [building.drop_index.2]
  | unwritable here _ wording =>
      obtain ⟨rfl, rfl⟩ := List.cons_eq_cons.mp (here.symm.trans stack)
      -- whatever is expected can be written
      obtain ⟨_, written⟩ := top.exists_display
      cases written.symm.trans wording
  | unmatched seen => cases known.symm.trans seen
  | unchoosable here seen chosen =>
      obtain ⟨rfl, rfl⟩ := List.cons_eq_cons.mp (here.symm.trans stack)
      cases known.symm.trans seen
      cases top with
      | named name =>
          cases (choose_eq_cell (Symbol.hashable_of_isNamed name) hashable).symm.trans chosen
  | emptyStack here => cases here.symm.trans stack
  | noTree here input done =>
      obtain ⟨rfl, rfl⟩ := List.cons_eq_cons.mp (here.symm.trans stack)
      cases top with
      | named name => cases name
      | body frames held next =>
          exact Or.inr (Or.inr ⟨rfl, input, _, _, _, frames, held, next, here⟩)
      | bottom _ complete => simp [complete] at done

/-- A parse that returns has accepted the tokens, rejected them from some place on, or found no tree
at an end mark of a body behind the last token.
-/
theorem outcome_of_textNamed (texts : p.table.TextNamed) (total : p.Total) {result : Finished τ}
    (returned : p.Returns tokens result)
    : (∃ tree, result.outcome = .accepted tree)
      ∨ (∃ index expected, result.outcome = .rejected index expected (tokens.drop index))
      ∨ result.outcome = .failed .noTree
        ∧ ∃ s,
            p.Reaches (.initial p.grammar.startSymbol tokens) s ∧ s.rest = [] ∧ p.AtBodyMark s := by
  obtain ⟨s, reaches, halts, _⟩ := Ends.exists_halts returned
  have building := Building.of_reaches p.builds_any reaches
  rcases building.outcome_of_halts texts total halts with accepted | rejected | ⟨failed, mark⟩
  · exact Or.inl accepted
  · exact Or.inr (Or.inl rejected)
  · exact Or.inr (Or.inr ⟨failed, s, reaches, mark⟩)

/-- Without end marks in the bodies, the tokens are accepted or rejected. -/
theorem outcome_of_returns (named : p.table.Named) (total : p.Total) {result : Finished τ}
    (returned : p.Returns tokens result)
    : (∃ tree, result.outcome = .accepted tree)
      ∨ ∃ index expected, result.outcome = .rejected index expected (tokens.drop index) := by
  rcases outcome_of_textNamed named.textNamed total returned with
    accepted | rejected | ⟨_, _, _, _, f, _, _, _, held, next, _⟩
  · exact Or.inl accepted
  · exact Or.inr rejected
  · -- the rule of the frame would have an end mark in its body
    cases named f.rule held _ (List.mem_of_getElem? next)

end Parser

end PredictiveParsing
