import PredictiveParsing.Proofs.AcceptedTrees

/-! The rows and cells of a filled table, for any first and follow sets. A cell holds the last
rule of its nonterminal that has the lookahead in its directing set.
-/

namespace PredictiveParsing

@[simp] theorem Rule.same_self (r : Rule) : r.same r = true :=
  decide_eq_true rfl

/-- Tables with the same rows are the same if all their cells are. -/
theorem Table.same_of_cells {t u : Table} (rows : ∀ n, t.hasKey n = u.hasKey n)
    (cells : ∀ n la, t.cell? n la = u.cell? n la)
    : t.same u = true := by
  refine ValueMap.same_iff.mpr ⟨rows, fun n row other left right => ?_⟩
  have equal (la : Value) : row.get? la = other.get? la := by
    simpa [cell?, left, right] using cells n la
  refine ValueMap.same_iff.mpr ⟨fun la => ValueMap.hasKey_eq_of_get? (equal la), ?_⟩
  intro la r s old new
  rw [equal, new] at old
  cases old
  exact r.same_self

theorem Table.keys_put {t : Table} {r : Rule} (row : t.hasKey r.lhs = true) (la : Value)
    : (t.put r la).keys = t.keys :=
  ValueMap.keys_insert row _

/-- Entering rules leaves the rows as they are if all of these rules have one. -/
theorem Filling.Enters.keys_eq {first follow : SetMap} {rules : List Rule} {f result : Filling}
    (enters : Enters first follow rules f result)
    (rows : ∀ r ∈ rules, f.table.hasKey r.lhs = true)
    : result.table.keys = f.table.keys := by
  induction enters with
  | nil => rfl
  | @cons r rules lookaheads f result _ _ ih =>
      rw [List.forall_mem_cons] at rows
      have entered : (lookaheads.foldl (put r) f).table.keys = f.table.keys := by
        apply foldl_invariant (fun later : Filling => later.table.keys = f.table.keys) _ rfl
        intro la _ later keys
        have row : later.table.hasKey r.lhs = true := by
          rw [ValueMap.hasKey_eq_of_keys keys, rows.1]
        exact (Table.keys_put row la).trans keys
      rw [ih, entered]
      intro s later
      rw [ValueMap.hasKey_eq_of_keys entered, rows.2 s later]

namespace Grammar

variable {g : Grammar} {first follow : SetMap}

/-- A rule is the last one, in the order of declaration, of those of a nonterminal that have a
lookahead in their directing sets.
-/
def LastDirected (g : Grammar) (first follow : SetMap) (n la : Value) (r : Rule) : Prop :=
  ∃ before after,
    g.rules = before ++ r :: after
    ∧ r.lhs = n
    ∧ (r.directingSet first follow).has la = true
    ∧ ∀ s ∈ after, s.lhs = n → (s.directingSet first follow).has la = false

theorem keys_start (g : Grammar) : (Filling.start g).table.keys = g.nontermValues :=
  g.keys_ofNonterms ∅

/-- A filled table has a row for every declared nonterminal and no other. -/
theorem keys_of_enters {f : Filling} (enters : Filling.Enters first follow g.rules (.start g) f)
    : f.table.keys = g.nontermValues := by
  rw [enters.keys_eq fun r member => hasKey_lhs_of_keys g.keys_start member, keys_start]

/-- The cells do not depend on the order in which the lookaheads of a rule are entered. -/
theorem cell?_of_enters {f : Filling} (enters : Filling.Enters first follow g.rules (.start g) f)
    (n la : Value)
    : f.table.cell? n la = (g.table first follow).cell? n la :=
  (enters.cell?_eq n la).trans ((g.enters_ofGrammar first follow).cell?_eq n la).symm

/-- Only the nonterminal of a rule counts as it, since its name is a text. -/
theorem lhs_key_iff {r : Rule} (member : r ∈ g.rules) {n : Value}
    : r.lhs.key = n.key ↔ r.lhs = n :=
  ⟨fun same => (eq_lhs_of_key member same.symm).symm, fun same => congrArg Value.key same⟩

/-- A cell holds a rule exactly if that is the last one in whose directing set the lookahead is. -/
theorem cell_iff_lastDirected {n la : Value} {r : Rule}
    : (g.table first follow).cell? n la = some r ↔ g.LastDirected first follow n la r := by
  rw [cell?_table, List.find?_eq_some_iff_append]
  simp only [Bool.and_eq_true, decide_eq_true_eq, Bool.not_eq_true', Bool.and_eq_false_imp]
  constructor
  · rintro ⟨⟨row, found⟩, after, before, split, none⟩
    have declared : g.rules = before.reverse ++ r :: after.reverse := by
      simpa using congrArg List.reverse split
    have member : r ∈ g.rules := by simp [declared]
    refine ⟨before.reverse, after.reverse, declared, (lhs_key_iff member).mp row, found, ?_⟩
    intro s later same
    exact none s (List.mem_reverse.mp later) (congrArg Value.key same)
  · rintro ⟨before, after, declared, row, found, none⟩
    refine ⟨⟨congrArg Value.key row, found⟩, after.reverse, before.reverse, by simp [declared], ?_⟩
    intro s later same
    have later := List.mem_reverse.mp later
    have member : s ∈ g.rules := by simp [declared, later]
    exact none s later ((lhs_key_iff member).mp same)

/-- A cell holds some rule exactly if the lookahead is in the directing set of a rule of the row. -/
theorem exists_cell_iff {n la : Value}
    : (∃ r, (g.table first follow).cell? n la = some r)
      ↔ ∃ r ∈ g.rules, r.lhs = n ∧ (r.directingSet first follow).has la = true := by
  constructor
  · rintro ⟨r, cell⟩
    obtain ⟨member, row, found⟩ := rule_of_cell cell
    exact ⟨r, member, (lhs_key_iff member).mp row, found⟩
  · rintro ⟨r, member, rfl, found⟩
    exact exists_cell member found

/-- Without conflicts, every rule is in the cells of all lookaheads in its directing set. -/
theorem cell_iff_directed (none : g.hasNoConflict first follow = true) {n la : Value} {r : Rule}
    : (g.table first follow).cell? n la = some r
      ↔ r ∈ g.rules ∧ r.lhs = n ∧ (r.directingSet first follow).has la = true := by
  constructor
  · intro cell
    obtain ⟨member, row, found⟩ := rule_of_cell cell
    exact ⟨member, (lhs_key_iff member).mp row, found⟩
  · rintro ⟨member, rfl, found⟩
    obtain ⟨s, cell⟩ := exists_cell member found
    obtain ⟨member', row, found'⟩ := rule_of_cell cell
    have heads : s.head.key = r.head.key := by simpa [Rule.lhs, Value.key] using row
    rw [cell, eq_of_directingSets none member' member heads found' found]

/-- A table for any first and follow sets has one row for each declared nonterminal. A cell holds
a rule if and only if some rule of the row's nonterminal has the lookahead in its directing set,
and then it holds the last of these. Rows and cells are the same in whatever order each rule is
entered for its lookaheads. Without conflicts, the cells of a rule are all those of the
lookaheads in its directing set.
-/
theorem cells_of_table (g : Grammar) (first follow : SetMap)
    : let table := g.table first follow
      let directs := fun (r : Rule) (la : Value) => (r.directingSet first follow).has la = true
      (table.keys = g.nontermValues ∧ table.keys.Nodup)
      ∧ (∀ n la, (∃ r, table.cell? n la = some r) ↔ ∃ r ∈ g.rules, r.lhs = n ∧ directs r la)
      ∧ (∀ n la r, table.cell? n la = some r ↔ g.LastDirected first follow n la r)
      ∧ (∀ f, Filling.Enters first follow g.rules (.start g) f
        → f.table.keys = table.keys ∧ ∀ n la, f.table.cell? n la = table.cell? n la)
      ∧ (g.conflicts first follow = []
        → ∀ n la r, table.cell? n la = some r ↔ r ∈ g.rules ∧ r.lhs = n ∧ directs r la) := by
  intro table directs
  have keys : table.keys = g.nontermValues := keys_of_enters (g.enters_ofGrammar first follow)
  refine ⟨⟨keys, keys ▸ g.distinct_nontermValues.of_map _⟩, fun n la => exists_cell_iff,
    fun n la r => cell_iff_lastDirected, fun f enters => ?_, fun none n la r => ?_⟩
  · refine ⟨(keys_of_enters enters).trans keys.symm, fun n la => ?_⟩
    exact (enters.cell?_eq n la).trans ((g.enters_ofGrammar first follow).cell?_eq n la).symm
  · exact cell_iff_directed (by simp [hasNoConflict, none])

theorem cells_of_table_brackets
    : let symbol : Value := .nonterm (.text (.ofString "S"))
      let follow : SetMap := .ofList [(symbol, .ofList [.endMark, .epsilon])]
      let empty : Rule := ⟨.text (.ofString "S"), []⟩
      ∃ f,
        Filling.Enters ∅ follow brackets.rules (.start brackets) f
        ∧ brackets.conflicts ∅ follow = []
        ∧ brackets.LastDirected ∅ follow symbol .epsilon empty
        ∧ f.table.cell? symbol .epsilon = some empty := by
  intro symbol follow empty
  -- the empty rule is entered for the two values of the follow set in the other order
  let opened := (Filling.start brackets).put brackets.rules[0] (.term (.text (.ofString "(")))
  let f := [.epsilon, .endMark].foldl (Filling.put empty) opened
  have first : [Value.term (.text (.ofString "("))].Perm (brackets.rules[0].lookaheads ∅ follow) :=
    .refl _
  have second : [Value.epsilon, .endMark].Perm (empty.lookaheads ∅ follow) := .swap _ _ _
  have enters : Filling.Enters ∅ follow brackets.rules (.start brackets) f :=
    .cons first (.cons second (.nil f))
  have none : brackets.conflicts ∅ follow = [] := List.isEmpty_iff.mp (by decide)
  obtain ⟨_, _, last, orders, only⟩ := brackets.cells_of_table ∅ follow
  have cell : (brackets.table ∅ follow).cell? symbol .epsilon = some empty :=
    (only none symbol .epsilon empty).mpr ⟨by decide, rfl, by decide⟩
  exact ⟨f, enters, none, (last _ _ _).mp cell, ((orders f enters).2 _ _).trans cell⟩

end Grammar

end PredictiveParsing
