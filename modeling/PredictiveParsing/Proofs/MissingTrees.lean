import PredictiveParsing.Proofs.FaultlessRuns

/-! The one way in which a parse can fail if the matcher never does and all symbols have texts as
names: behind the last token, an end mark in the body of a rule is expected before the tree is
complete. Tables that are filled for a grammar have no rules with end marks.
-/

namespace PredictiveParsing

variable {τ : Type}

namespace Parser

variable {p : Parser τ} {Fits : Symbol → Tree τ → Prop} {tokens : List τ} {s : State τ}

/-- An end mark on top of the stack of a state in order is that of a body if it is not at the bottom
of the stack, and also if no tree is complete.
-/
theorem Building.atBodyMark_iff (texts : p.table.TextNamed) (building : p.Building Fits tokens s)
    {below : List Symbol} (stack : s.stack = .endMark :: below)
    : (p.AtBodyMark s ↔ below ≠ []) ∧ (p.AtBodyMark s ↔ s.done = []) := by
  obtain ⟨x, under, here, top⟩ := building.top texts
  obtain ⟨rfl, rfl⟩ := List.cons_eq_cons.mp (here.symm.trans stack)
  cases top with
  | named name => cases name
  | body frames held next inner none =>
      have mark : p.AtBodyMark s := ⟨_, _, _, frames, held, next, stack⟩
      exact ⟨iff_of_true mark inner, iff_of_true mark none⟩
  | bottom frames complete =>
      have other : ¬ p.AtBodyMark s := by
        rintro ⟨_, _, _, present, _⟩
        cases frames.symm.trans present
      exact ⟨iff_of_false other (by simp), iff_of_false other (by simp [complete])⟩

/-- A parse ends without a tree exactly if it comes to an end mark of a body behind the last token.
-/
theorem returns_noTree_iff (texts : p.table.TextNamed) (total : p.Total)
    : (∃ calls, p.Returns tokens ⟨.failed .noTree, calls⟩)
      ↔ ∃ s,
          p.Reaches (.initial p.grammar.startSymbol tokens) s ∧ s.rest = [] ∧ p.AtBodyMark s := by
  constructor
  · rintro ⟨calls, returned⟩
    rcases outcome_of_textNamed texts total returned with ⟨_, other⟩ | ⟨_, _, other⟩ | ⟨_, mark⟩
    · cases other
    · cases other
    · exact mark
  · rintro ⟨s, reaches, input, mark⟩
    have building := Building.of_reaches p.builds_any reaches
    obtain ⟨_, _, _, _, _, _, stack⟩ := id mark
    have done := (building.atBodyMark_iff texts stack).2.mp mark
    exact ⟨_, (Ends.of_halt (p.step_noTree stack input done)).of_reaches reaches⟩

/-- If all symbols in the rules of a table have texts as names, and the matcher never fails, a parse
that ends has accepted, rejected the tokens from some place on, or found no tree. The last happens
exactly if it reaches, behind the last token, an end mark of a rule's body, which is one that is
not at the bottom of the stack, and one before which no tree is complete. So no parse fails with a
table whose rules have no end marks, and those of a table that is filled for a grammar have none.
-/
theorem failed_only_at_body_mark (p : Parser τ) (texts : p.table.TextNamed) (total : p.Total)
    (tokens : List τ)
    : (∀ result, p.Returns tokens result
        → (∃ tree, result.outcome = .accepted tree)
          ∨ (∃ index expected, result.outcome = .rejected index expected (tokens.drop index))
          ∨ result.outcome = .failed .noTree)
      ∧ ((∃ calls, p.Returns tokens ⟨.failed .noTree, calls⟩)
        ↔ ∃ s,
            p.Reaches (.initial p.grammar.startSymbol tokens) s
            ∧ s.rest = []
            ∧ p.AtBodyMark s)
      ∧ (∀ s below,
          p.Reaches (.initial p.grammar.startSymbol tokens) s
          → s.stack = .endMark :: below
          → (p.AtBodyMark s ↔ below ≠ []) ∧ (p.AtBodyMark s ↔ s.done = []))
      ∧ ((∀ r, p.table.Holds r → .endMark ∉ r.body)
        → ∀ fault calls, ¬ p.Returns tokens ⟨.failed fault, calls⟩)
      ∧ ∀ (g : Grammar) (first follow : SetMap),
          (g.table first follow).TextNamed
          ∧ ∀ r, (g.table first follow).Holds r → .endMark ∉ r.body := by
  refine ⟨fun result returned => ?_, returns_noTree_iff texts total, fun s below reaches stack => ?_,
    fun unmarked fault calls returned => ?_, fun g first follow => ⟨?_, fun r held occurs => ?_⟩⟩
  · exact (outcome_of_textNamed texts total returned).imp_right (Or.imp_right And.left)
  · exact (Building.of_reaches p.builds_any reaches).atBodyMark_iff texts stack
  · rcases outcome_of_returns (texts.named unmarked) total returned with ⟨_, other⟩ | ⟨_, _, other⟩
    · cases other
    · cases other
  · exact (g.named_table first follow).textNamed
  · cases g.named_table first follow r held _ occurs

end Parser

/-- A table whose only rule has an end mark behind an opening bracket. -/
def Table.markedBrackets : Table :=
  let opening : Symbol := .term (.text (.ofString "("))
  .ofList [(.nonterm (.text (.ofString "S")), .ofList [
    (opening.toValue, ⟨.text (.ofString "S"), [opening, .endMark]⟩)
  ])]

theorem Parser.failed_only_at_body_mark_markedBrackets
    : let p : Parser Text := ⟨.brackets, .markedBrackets, fun name => .ok (.term (.text name))⟩
      let q : Parser Text := { p with table := Grammar.brackets.ownTable }
      let opening : Text := .ofString "("
      p.table.TextNamed
      ∧ p.Total
      ∧ p.Returns [opening] ⟨.failed .noTree, 2⟩
      ∧ (∃ s,
        p.Reaches (.initial p.grammar.startSymbol [opening]) s ∧ s.rest = [] ∧ p.AtBodyMark s)
      ∧ q.table.TextNamed
      ∧ (∀ r, q.table.Holds r → .endMark ∉ r.body)
      ∧ ∀ fault calls, ¬ q.Returns [opening] ⟨.failed fault, calls⟩ := by
  intro p q opening
  have texts : p.table.TextNamed := by
    intro r held
    have all : ∀ row ∈ p.table.entries, ∀ cell ∈ row.2.entries,
        ∀ x ∈ cell.2.body, x = .endMark ∨ x.isNamed = true := by decide
    obtain ⟨row, inTable, cell, inRow, rfl⟩ := Table.exists_mem_of_holds held
    exact all row inTable cell inRow
  have total : p.Total := fun name => ⟨_, rfl, rfl⟩
  have failed : p.Returns [opening] ⟨.failed .noTree, 2⟩ := ⟨3, rfl⟩
  obtain ⟨_, found, _, _, tables⟩ := p.failed_only_at_body_mark texts total [opening]
  obtain ⟨texts', unmarked⟩ := tables .brackets _ _
  obtain ⟨_, _, _, never, _⟩ := q.failed_only_at_body_mark texts' total [opening]
  exact ⟨texts, total, failed, found.mp ⟨2, failed⟩, texts', unmarked, never unmarked⟩

end PredictiveParsing
