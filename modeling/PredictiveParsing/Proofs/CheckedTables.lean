import PredictiveParsing.Proofs.CheckedSets
import PredictiveParsing.Proofs.DeclaredSets
import PredictiveParsing.Proofs.OverwriteWarnings

/-! The table and the conflicts of a grammar with every look-up checked. By the computed sets no
check fails: every rule has its row, and all lookaheads can be looked up and written.
-/

namespace PredictiveParsing

-----------------------------------------------------------------------------------------
-- Filling a table
-----------------------------------------------------------------------------------------

namespace Filling

/-- Enters a rule for a lookahead into the row that its nonterminal has to have. -/
def checkedPut (r : Rule) (f : Filling) (lookahead : Value) : Except Fault Filling := do
  let (t, overwrite?) ← f.table.setCell r lookahead
  .ok ⟨t, f.overwrites ++ overwrite?.toList⟩

/-- Enters a rule for the lookaheads with which its right-hand side begins and, if this can vanish,
for those that follow the nonterminal.
-/
def checkedPutRule (first follow : SetMap) (f : Filling) (r : Rule) : Except Fault Filling := do
  let begins ← first.firstOfValue (.tuple r.rhs)
  let f ← (begins.erase .epsilon).items.foldlM (checkedPut r) f
  if begins.has .epsilon then do
    r.lhs.checkHashable
    (follow.setOf r.lhs).items.foldlM (checkedPut r) f
  else
    .ok f

end Filling

namespace Grammar

def checkedTable (g : Grammar) (first follow : SetMap) : Except Fault Filling :=
  g.rules.foldlM (Filling.checkedPutRule first follow) (.start g)

variable {g : Grammar} {first follow : SetMap}

/-- A table that is being filled has a row for every nonterminal, and rules of the grammar in its
cells.
-/
structure Fills (g : Grammar) (f : Filling) : Prop where
  rows : f.table.keys = g.nontermValues
  cells : ∀ {n la : Value} {r : Rule}, f.table.cell? n la = some r → r ∈ g.rules

/-- Before the first rule is entered all rows are there, and no cell holds a rule. -/
theorem fills_start (g : Grammar) : g.Fills (.start g) :=
  ⟨g.keys_start, fun cell => by simp [cell?_start] at cell⟩

section Put

variable {f : Filling} (fills : g.Fills f) {r : Rule} (member : r ∈ g.rules)

include fills member

/-- Entering a rule of the grammar adds no row, and only puts that rule into a cell. -/
theorem Fills.put (la : Value) : g.Fills (f.put r la) where
  rows := (Table.keys_put (hasKey_lhs_of_keys fills.rows member) la).trans fills.rows
  cells := by
    intro n v s cell
    rw [Filling.put, Table.cell?_put] at cell
    split at cell
    · cases cell
      exact member
    · exact fills.cells cell

/-- Entering a rule of the grammar does not fail for a lookahead that can be looked up and written.
-/
theorem checkedPut_eq {la : Value} (hashable : la.hashable = true)
    (written : ∃ shown, la.display = .ok shown)
    : Filling.checkedPut r f la = .ok (f.put r la) := by
  rw [Filling.checkedPut, Table.setCell, Value.checkHashable_eq (hashable_lhs member),
    Value.checkHashable_eq hashable, Filling.put, Table.overwrite?]
  simp only [bind, Except.bind, hasKey_lhs_of_keys fills.rows member, if_true]
  cases held : f.table.cell? r.lhs la with
  | none => rfl
  | some old =>
      cases same : r.same old with
      | true => simp [same]
      | false =>
          obtain ⟨shown, message⟩ := exists_message (o := ⟨r.lhs, la, r, old⟩) member
            (fills.cells held) rfl written
          simp [same, message]

end Put

/-- The lookaheads that choose the rules of a grammar can be looked up and written. -/
def Manageable (g : Grammar) (first follow : SetMap) : Prop :=
  ∀ r ∈ g.rules,
    ∀ la,
      (r.directingSet first follow).has la = true
      → la.hashable = true ∧ ∃ shown, la.display = .ok shown

/-- The lookaheads by the computed sets are declared terminals and the end mark. -/
theorem manageable_of_computed (g : Grammar) (null : ValueSet)
    : g.Manageable g.first (g.follow g.first null) := by
  intro r member la directed
  have known := hasLookahead_of_directed member directed
  exact ⟨known.hashable, known.exists_display⟩

theorem foldlM_checkedPut_eq {f : Filling} (fills : g.Fills f) {r : Rule} (member : r ∈ g.rules)
    {lookaheads : List Value}
    (known : ∀ la ∈ lookaheads, la.hashable = true ∧ ∃ shown, la.display = .ok shown)
    : lookaheads.foldlM (Filling.checkedPut r) f = .ok (lookaheads.foldl (Filling.put r) f) :=
  foldlM_eq_foldl g.Fills
    (fun la listed _ fills => checkedPut_eq fills member (known la listed).1 (known la listed).2)
    (fun la _ _ fills => fills.put member la) fills

theorem Fills.foldl_put {f : Filling} (fills : g.Fills f) {r : Rule} (member : r ∈ g.rules)
    (lookaheads : List Value)
    : g.Fills (lookaheads.foldl (Filling.put r) f) :=
  foldl_invariant g.Fills (fun la _ _ fills => fills.put member la) fills

/-- Entering a rule of the grammar for all its lookaheads does not fail. -/
theorem checkedPutRule_eq (manageable : g.Manageable first follow) {f : Filling}
    (fills : g.Fills f) {r : Rule} (member : r ∈ g.rules)
    : Filling.checkedPutRule first follow f r = .ok (f.putRule first follow r) := by
  have known : ∀ la ∈ r.lookaheads first follow,
      la.hashable = true ∧ ∃ shown, la.display = .ok shown := fun la listed =>
    manageable r member la (Filling.exists_lookahead_iff.mp ⟨la, listed, rfl⟩)
  rw [Filling.putRule]
  rw [Rule.lookaheads] at known ⊢
  obtain ⟨begins, behind⟩ := List.forall_mem_append.mp known
  rw [Filling.checkedPutRule, first.firstOfValue_eq (hashable_rhs member), r.firstOf_rhs,
    List.foldl_append]
  simp only [bind, Except.bind, foldlM_checkedPut_eq fills member begins]
  split
  · rename_i vanishes
    rw [if_pos vanishes] at behind
    rw [Value.checkHashable_eq (hashable_lhs member)]
    exact foldlM_checkedPut_eq (fills.foldl_put member _) member behind
  · rfl

/-- A table whose lookaheads can be looked up and written is filled without a failing look-up. -/
theorem checkedTable_eq (manageable : g.Manageable first follow)
    : g.checkedTable first follow = .ok (.ofGrammar g first follow) :=
  foldlM_eq_foldl g.Fills (fun _ member _ fills => checkedPutRule_eq manageable fills member)
    (fun _ member _ fills => fills.foldl_put member _) g.fills_start

end Grammar

-----------------------------------------------------------------------------------------
-- Conflicts
-----------------------------------------------------------------------------------------

namespace Predictor

/-- The conflicts between rules of one nonterminal. If there are fewer than two, none is selected. -/
def checkedConflictsOf (p : Predictor) (rules : List Rule) : Except Fault (List Conflict) := do
  if rules.length < 2 then
    .ok []
  else
    let selects ← rules.mapM fun r => do .ok (r, ← p.select r)
    .ok ((pairs selects).filterMap fun pair =>
      let common := pair.1.2.inter pair.2.2
      if common.items.isEmpty then none else some ⟨pair.1.1.lhs, pair.1.1, pair.2.1, common⟩)

def checkedConflicts (p : Predictor) : Except Fault (List Conflict) := do
  p.grammar.rules.forM fun r => r.lhs.checkHashable
  let conflicts ← p.grammar.heads.mapM fun head =>
    p.checkedConflictsOf (p.grammar.rules.filter fun r => decide (r.head.key = head.key))
  .ok conflicts.flatten

variable {p : Predictor}

/-- The directing set of a rule of the grammar can always be computed. -/
theorem select_eq {r : Rule} (member : r ∈ p.grammar.rules)
    : p.select r = .ok (r.directingSet p.first p.follow) :=
  select_of_selectable ⟨Value.allHashable_iff.mpr (Grammar.hashable_word member),
    fun _ => Grammar.hashable_lhs member⟩

/-- For rules of the grammar no look-up fails. Fewer than two rules are no pair. -/
theorem checkedConflictsOf_eq {rules : List Rule} (among : ∀ r ∈ rules, r ∈ p.grammar.rules)
    : p.checkedConflictsOf rules
      = .ok ((pairs rules).filterMap (Grammar.conflict? p.first p.follow)) := by
  rw [checkedConflictsOf]
  split
  · rename_i few
    match rules, few with
    | [], _ => rfl
    | [_], _ => rfl
  · have selects : rules.mapM (fun r => do .ok (r, ← p.select r))
        = .ok (rules.map fun r => (r, r.directingSet p.first p.follow)) :=
      mapM_eq_map fun r member => by rw [select_eq (among r member)]; rfl
    rw [selects]
    simp only [bind, Except.bind, pairs_map, List.filterMap_map]
    rfl

/-- No look-up fails while the conflicts are found, whatever the sets are. -/
theorem checkedConflicts_eq (p : Predictor)
    : p.checkedConflicts = .ok (p.grammar.conflicts p.first p.follow) := by
  have heads : p.grammar.rules.forM (fun r => r.lhs.checkHashable) = .ok () :=
    forM_eq_ok fun r member => Value.checkHashable_eq (Grammar.hashable_lhs member)
  have groups : p.grammar.heads.mapM (fun head =>
        p.checkedConflictsOf (p.grammar.rules.filter fun r => decide (r.head.key = head.key)))
      = .ok (p.grammar.heads.map (p.grammar.conflictsOf p.first p.follow)) :=
    mapM_eq_map fun head _ => checkedConflictsOf_eq fun r hr => List.mem_of_mem_filter hr
  rw [checkedConflicts, heads, groups]
  rfl

end Predictor

namespace Grammar

variable {g : Grammar} {first follow : SetMap}

/-- A conflict can be worded as soon as the lookaheads of the rules can be written. -/
theorem exists_message_of_conflict (manageable : g.Manageable first follow) {c : Conflict}
    (listed : c ∈ g.conflicts first follow)
    : ∃ shown, (Event.notLL1 c).message = .ok shown := by
  obtain ⟨r, s, ordered, _, rfl⟩ := mem_conflicts.mp listed
  have hr : r ∈ g.rules := ordered.subset (by simp)
  have hs : s ∈ g.rules := ordered.subset (by simp)
  have written : ∀ la ∈ (r.conflictWith first follow s).lookaheads.items,
      ∃ shown, la.display = .ok shown := by
    intro la common
    have both := ValueSet.has_of_mem common
    rw [Rule.conflictWith, ValueSet.has_inter, Bool.and_eq_true] at both
    exact (manageable r hr la both.1).2
  obtain ⟨shown, lookaheads⟩ := exists_displayAll written
  obtain ⟨⟨n, _, head⟩, _⟩ := g.rules_declared r hr
  obtain ⟨left, hleft⟩ := exists_display_of_mem hr
  obtain ⟨right, hright⟩ := exists_display_of_mem hs
  have nonterm : r.lhs.display = .ok n := by rw [Rule.lhs, head]; rfl
  have worded : (r.conflictWith first follow s).lookaheads.outline = .ok (Text.sort shown) := by
    rw [ValueSet.outline, lookaheads]
    rfl
  rw [Event.message, Conflict.display, worded]
  simp only [Rule.conflictWith, nonterm, hleft, hright]
  exact ⟨_, rfl⟩

-----------------------------------------------------------------------------------------
-- The journal of the analysis
-----------------------------------------------------------------------------------------

/-- Sets that are not given are computed, and then they are the same as if they were given. -/
theorem run_isLL1 (g : Grammar) {first? follow? : Option SetMap}
    (hf : first? ∈ [none, some g.first])
    (hw : follow? ∈ [none, some (g.follow g.first g.nullable)]) (events : List Event)
    : ((Journal.isLL1 g first? follow?).run.run events).1 = .ok g.isLL1 := by
  have first : ∃ later,
      (Journal.givenOr (pure first?) (Journal.first g)).run.run events = (.ok g.first, later) := by
    rcases List.mem_pair.mp hf with rfl | rfl
    · exact ⟨_, rfl⟩
    · exact ⟨_, rfl⟩
  obtain ⟨later, ran⟩ := first
  have follow : ∃ last,
      (Journal.givenOr (pure follow?) (do Journal.follow g g.first (← Journal.nullable g))).run.run
          later
        = (.ok (g.follow g.first g.nullable), last) := by
    rcases List.mem_pair.mp hw with rfl | rfl
    · exact ⟨_, rfl⟩
    · exact ⟨_, rfl⟩
  obtain ⟨last, ran'⟩ := follow
  have messages : ∀ c ∈ g.conflicts g.first (g.follow g.first g.nullable),
      ∃ shown, (Event.notLL1 c).message = .ok shown := fun c listed =>
    exists_message_of_conflict (g.manageable_of_computed g.nullable) listed
  have reported := Journal.run_report_each messages last
  rw [Journal.isLL1, Journal.run_bind_of_run ran, Journal.run_bind_of_run ran',
    Journal.run_bind_of_run reported]
  rfl

/-- Filling a table succeeds whatever was reported before, since all its warnings can be worded. -/
theorem run_table_of_manageable (manageable : g.Manageable first follow) (events : List Event)
    : ((Journal.table g first follow).run.run events).1 = .ok (g.table first follow) := by
  have written : ∀ o ∈ (Filling.ofGrammar g first follow).overwrites,
      ∃ shown, o.lookahead.display = .ok shown := by
    intro o warned
    obtain ⟨ordered, _⟩ := sublist_of_overwrite (g.enters_ofGrammar first follow) warned
    have claims := mem_claimants.mp (ordered.subset (by simp : o.new ∈ [o.old, o.new]))
    exact (manageable o.new claims.1 o.lookahead claims.2.2).2
  rw [run_table written]

/-- The whole analysis of a grammar never fails. With all look-ups checked, the sets, the table and
the conflicts come out as without checks, after finitely many passes, and all that the journal
reports can be worded. The maps and the table have exactly one entry for each declared nonterminal.
First sets have only declared terminals and the mark of the empty word, follow sets only declared
terminals and the end mark, which follows the start symbol. The row of a nonterminal has only
declared terminals and the end mark as lookaheads, and only rules of that nonterminal.
-/
theorem analysis_never_fails (g : Grammar)
    : let p := Predictor.ofGrammar g
      let table := g.table p.first p.follow
      ((∃ enough, ∀ fuel ≥ enough, g.checkedPredictor fuel = .ok (some p))
        ∧ g.checkedTable p.first p.follow = .ok (.ofGrammar g p.first p.follow)
        ∧ p.checkedConflicts = .ok (g.conflicts p.first p.follow)
        ∧ ∀ events,
            ((Journal.predictor g).run.run events).1 = .ok p
            ∧ ((Journal.table g p.first p.follow).run.run events).1 = .ok table
            ∧ ∀ first? ∈ [none, some p.first],
                ∀ follow? ∈ [none, some p.follow],
                  ((Journal.isLL1 g first? follow?).run.run events).1 = .ok g.isLL1)
      ∧ (g.nontermValues.Nodup
        ∧ p.first.keys = g.nontermValues
        ∧ p.follow.keys = g.nontermValues
        ∧ table.keys = g.nontermValues)
      ∧ (∀ n v, (p.first.setOf n).has v = true → g.HasTerm v ∨ v = .epsilon)
      ∧ (∀ n v, (p.follow.setOf n).has v = true → g.HasTerm v ∨ v = .endMark)
      ∧ (p.follow.setOf g.startSymbol.toValue).has .endMark = true
      ∧ ∀ n la r,
          table.cell? n la = some r
          → (g.HasTerm la ∨ la = .endMark) ∧ r ∈ g.rules ∧ r.lhs = n := by
  intro p table
  have manageable : g.Manageable p.first p.follow := g.manageable_of_computed g.nullable
  refine ⟨⟨g.checkedPredictor_settles, checkedTable_eq manageable, p.checkedConflicts_eq,
      fun events => ⟨Journal.run_predictor g events, run_table_of_manageable manageable events,
        fun first? hf follow? hw => ?_⟩⟩,
    ⟨g.distinct_nontermValues.of_map _, g.keys_first, g.keys_follow _ _,
      keys_of_enters (g.enters_ofGrammar _ _)⟩,
    fun n v found => hasTerm_of_has_first found,
    fun n v found => hasLookahead_of_has_follow found, g.has_follow_start _ _,
    fun n la r cell => ?_⟩
  · exact g.run_isLL1 hf hw events
  · obtain ⟨member, row, directed⟩ := rule_of_cell cell
    exact ⟨hasLookahead_of_directed member directed, member, (lhs_key_iff member).mp row⟩

end Grammar

end PredictiveParsing
