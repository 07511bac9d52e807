import Mathlib.Data.List.Perm.Subperm
import PredictiveParsing.Proofs.TableCells

/-! The number of cells of a filled table. There are at most as many as lookaheads in the
directing sets of all rules, and as many exactly if the rules have no conflicts.
-/

namespace PredictiveParsing

-----------------------------------------------------------------------------------------
-- The cells of a table
-----------------------------------------------------------------------------------------

namespace Table

/-- The representatives of row and lookahead of every cell. -/
def cellKeys (t : Table) : List (Value × Value) :=
  t.entries.flatMap fun row => row.2.entries.map fun cell => (row.1.key, cell.1.key)

/-- There are as many representatives as cells, by induction on the rows. -/
theorem length_cellKeys (t : Table) : t.cellKeys.length = t.cellCount := by
  rw [cellKeys, cellCount]
  induction t.entries with
  | nil => rfl
  | cons row rows ih =>
      rw [List.flatMap_cons, List.length_append, ih, List.length_map]
      rfl

/-- No cell is represented twice: rows differ in their nonterminals, and the cells of one row in
their lookaheads.
-/
theorem nodup_cellKeys (t : Table) : t.cellKeys.Nodup := by
  rw [cellKeys, List.nodup_flatMap]
  constructor
  · intro row _
    apply List.Nodup.of_map Prod.snd
    rw [List.map_map]
    exact row.2.distinct
  · refine (List.pairwise_map.mp t.distinct).imp fun apart => List.disjoint_left.mpr ?_
    intro key left right
    obtain ⟨_, _, rfl⟩ := List.mem_map.mp left
    obtain ⟨_, _, same⟩ := List.mem_map.mp right
    exact apart (congrArg Prod.fst same).symm

/-- A row and a lookahead are represented exactly if their cell holds a rule. -/
theorem mem_cellKeys {t : Table} {key : Value × Value}
    : key ∈ t.cellKeys ↔ ∃ n la, key = (n.key, la.key) ∧ ∃ r, t.cell? n la = some r := by
  simp only [cellKeys, List.mem_flatMap, List.mem_map]
  constructor
  · rintro ⟨row, listed, cell, filled, rfl⟩
    refine ⟨row.1, cell.1, rfl, cell.2, ?_⟩
    rw [cell?, ValueMap.get?_of_mem listed, Option.bind_some, ValueMap.get?_of_mem filled]
  · rintro ⟨n, la, rfl, r, cell⟩
    obtain ⟨row, found, filled⟩ := Option.bind_eq_some_iff.mp cell
    obtain ⟨entry, listed, sameRow, rfl⟩ := ValueMap.exists_mem_of_get? found
    obtain ⟨inner, listed', sameCell, _⟩ := ValueMap.exists_mem_of_get? filled
    exact ⟨entry, listed, inner, listed', by rw [sameRow, sameCell]⟩

end Table

/-- A list without repetitions is at most as long as one with the same elements, and as long
exactly if that one has no repetitions either.
-/
theorem length_le_and_eq_iff_of_mem_iff {α : Type} {cells claims : List α} (distinct : cells.Nodup)
    (same : ∀ a, a ∈ cells ↔ a ∈ claims)
    : cells.length ≤ claims.length ∧ (cells.length = claims.length ↔ claims.Nodup) := by
  have among : cells ⊆ claims := fun a => (same a).mp
  refine ⟨distinct.length_le_of_subset among, fun equal => ?_, fun once => ?_⟩
  · exact ((distinct.subperm among).perm_of_length_le equal.ge).nodup_iff.mp distinct
  · exact ((List.perm_ext_iff_of_nodup distinct once).mpr same).length_eq

-----------------------------------------------------------------------------------------
-- The cells that the rules of a grammar claim
-----------------------------------------------------------------------------------------

namespace Grammar

variable {g : Grammar} {first follow : SetMap}

/-- The cells that each rule is entered into, once for each lookahead in its directing set. -/
def claimedKeys (g : Grammar) (first follow : SetMap) : List (Value × Value) :=
  g.rules.flatMap fun r => (r.directingSet first follow).items.map fun la => (r.lhs.key, la.key)

/-- A rule claims as many cells as there are lookaheads in its directing set. -/
theorem length_claimedKeys (g : Grammar) (first follow : SetMap)
    : (g.claimedKeys first follow).length
      = (g.rules.map fun r => (r.directingSet first follow).size).sum := by
  simp [claimedKeys, List.length_flatMap, ValueSet.size]

/-- A cell is claimed exactly if a rule of its row has the lookahead in its directing set. -/
theorem mem_claimedKeys {key : Value × Value}
    : key ∈ g.claimedKeys first follow
      ↔ ∃ n la,
          key = (n.key, la.key)
          ∧ ∃ r ∈ g.rules, r.lhs = n ∧ (r.directingSet first follow).has la = true := by
  simp only [claimedKeys, List.mem_flatMap, List.mem_map]
  constructor
  · rintro ⟨r, member, la, listed, rfl⟩
    exact ⟨r.lhs, la, rfl, r, member, rfl, ValueSet.has_of_mem listed⟩
  · rintro ⟨_, la, rfl, r, member, rfl, found⟩
    obtain ⟨listed, hl, same⟩ := ValueSet.has_iff.mp found
    exact ⟨r, member, listed, hl, by rw [same]⟩

/-- Two rules claim no cell in common exactly if they do not clash. -/
theorem disjoint_claims_iff {r s : Rule} (member : r ∈ g.rules)
    : List.Disjoint ((r.directingSet first follow).items.map fun la => (r.lhs.key, la.key))
        ((s.directingSet first follow).items.map fun la => (s.lhs.key, la.key))
      ↔ ¬ r.Clashes first follow s := by
  rw [List.disjoint_left]
  constructor
  · rintro disjoint ⟨same, v, left, right⟩
    obtain ⟨la, hl, equal⟩ := ValueSet.has_iff.mp left
    obtain ⟨other, ho, equal'⟩ := ValueSet.has_iff.mp right
    refine disjoint (List.mem_map_of_mem hl) (List.mem_map.mpr ⟨other, ho, ?_⟩)
    rw [same, equal, equal']
  · intro apart _ left right
    obtain ⟨la, hl, rfl⟩ := List.mem_map.mp left
    obtain ⟨other, ho, same⟩ := List.mem_map.mp right
    have heads : s.lhs = r.lhs := eq_lhs_of_key member (congrArg Prod.fst same)
    refine apart ⟨heads.symm, la, ValueSet.has_of_mem hl, ?_⟩
    exact ValueSet.has_iff.mpr ⟨other, ho, congrArg Prod.snd same⟩

/-- No cell is claimed twice exactly if there are no conflicts. -/
theorem nodup_claimedKeys_iff
    : (g.claimedKeys first follow).Nodup ↔ g.conflicts first follow = [] := by
  have once (r : Rule)
      : ((r.directingSet first follow).items.map fun la => (r.lhs.key, la.key)).Nodup := by
    apply List.Nodup.of_map Prod.snd
    rw [List.map_map]
    exact (r.directingSet first follow).distinct
  rw [← List.isEmpty_iff, ← hasNoConflict, hasNoConflict_iff_pairwise, claimedKeys,
    List.nodup_flatMap]
  constructor
  · rintro ⟨_, apart⟩
    exact apart.imp_of_mem fun hr _ disjoint => (disjoint_claims_iff hr).mp disjoint
  · intro apart
    exact ⟨fun r _ => once r, apart.imp_of_mem fun hr _ => (disjoint_claims_iff hr).mpr⟩

/-- The cells that hold a rule in the end are the claimed ones, in whatever order the lookaheads of
a rule are entered.
-/
theorem mem_cellKeys_of_enters {f : Filling}
    (enters : Filling.Enters first follow g.rules (.start g) f) (key : Value × Value)
    : key ∈ f.table.cellKeys ↔ key ∈ g.claimedKeys first follow := by
  simp only [Table.mem_cellKeys, mem_claimedKeys, cell?_of_enters enters, exists_cell_iff]

/-- Conflicts are listed exactly once for each two positions of clashing rules, in the order of the
first rules of their nonterminals and then of the positions, with the lookaheads that both
directing sets have. The table has at most as many cells as there are lookaheads in the directing
sets of all rules, and as many if and only if there are no conflicts. The number of cells is the
same in whatever order each rule is entered for its lookaheads.
-/
theorem conflicts_enumerate_clashes (g : Grammar) (first follow : SetMap)
    : let directing := fun (r : Rule) => r.directingSet first follow
      let table := g.table first follow
      let total := (g.rules.map fun r => (directing r).size).sum
      (∃ places : List (Fin g.rules.length × Fin g.rules.length),
        g.conflicts first follow
          = places.map (fun (i, j) => {
            nonterm := (g.rules.get i).lhs
            first := g.rules.get i
            second := g.rules.get j
            lookaheads := (directing (g.rules.get i)).inter (directing (g.rules.get j))
          })
        ∧ places.Pairwise g.Precedes
        ∧ ∀ i j,
            (i, j) ∈ places
            ↔ i < j
              ∧ (g.rules.get i).lhs = (g.rules.get j).lhs
              ∧ ∃ la,
                  (directing (g.rules.get i)).has la = true
                  ∧ (directing (g.rules.get j)).has la = true)
      ∧ table.cellCount ≤ total
      ∧ (table.cellCount = total ↔ g.conflicts first follow = [])
      ∧ ∀ f, Filling.Enters first follow g.rules (.start g) f
        → f.table.cellCount = table.cellCount := by
  intro directing table total
  have cells := mem_cellKeys_of_enters (g.enters_ofGrammar first follow)
  obtain ⟨most, all⟩ := length_le_and_eq_iff_of_mem_iff table.nodup_cellKeys cells
  rw [Table.length_cellKeys, length_claimedKeys] at most all
  refine ⟨⟨g.conflictPlaces first follow, g.conflicts_eq_map first follow,
    g.pairwise_conflictPlaces first follow, fun i j => mem_conflictPlaces⟩,
    most, all.trans nodup_claimedKeys_iff, fun f enters => ?_⟩
  have same : f.table.cellKeys.Perm table.cellKeys :=
    (List.perm_ext_iff_of_nodup f.table.nodup_cellKeys table.nodup_cellKeys).mpr fun key =>
      (mem_cellKeys_of_enters enters key).trans (cells key).symm
  rw [← Table.length_cellKeys, same.length_eq, Table.length_cellKeys]

/-- A letter by two equal rules, or nothing. -/
def repeatedLetter : Grammar where
  nonterms := [.ofString "S"]
  terms := [.ofString "c"]
  rules := [
    ⟨.text (.ofString "S"), [.term (.text (.ofString "c"))]⟩,
    ⟨.text (.ofString "S"), [.term (.text (.ofString "c"))]⟩,
    ⟨.text (.ofString "S"), []⟩
  ]
  start := .ofString "S"
  nonterms_nodup := brackets.nonterms_nodup
  terms_nodup := by decide
  nonterms_named := brackets.nonterms_named
  terms_named := by decide
  rules_declared := by simp [Rule.Declared, Symbol.Declared]
  start_declared := brackets.start_declared

/-- Follow sets by which a letter may stand behind itself. -/
def repeatedFollow : SetMap :=
  .ofList [(.nonterm (.text (.ofString "S")), .ofList [.term (.text (.ofString "c")), .endMark])]

theorem conflicts_enumerate_clashes_repeatedLetter
    : let g := repeatedLetter
      let table := g.table ∅ repeatedFollow
      ∃ f,
        Filling.Enters ∅ repeatedFollow g.rules (.start g) f
        ∧ f.table.cellCount = table.cellCount
        ∧ table.cellCount < (g.rules.map fun r => (r.directingSet ∅ repeatedFollow).size).sum
        ∧ g.conflicts ∅ repeatedFollow ≠ [] := by
  intro g table
  let letter : Value := .term (.text (.ofString "c"))
  -- the empty rule is entered for the two values of the follow set in the other order
  let entered := [letter].foldl (Filling.put g.rules[1])
    ([letter].foldl (Filling.put g.rules[0]) (.start g))
  let f := [.endMark, letter].foldl (Filling.put g.rules[2]) entered
  have last : [.endMark, letter].Perm (g.rules[2].lookaheads ∅ repeatedFollow) := .swap _ _ _
  have enters : Filling.Enters ∅ repeatedFollow g.rules (.start g) f :=
    .cons (.refl _) (.cons (.refl _) (.cons last (.nil f)))
  obtain ⟨_, most, all, orders⟩ := g.conflicts_enumerate_clashes ∅ repeatedFollow
  have conflicting : g.conflicts ∅ repeatedFollow ≠ [] :=
    fun none => absurd (List.isEmpty_iff.mpr none) (by decide)
  exact ⟨f, enters, orders f enters, most.lt_of_ne (mt all.mp conflicting), conflicting⟩

end Grammar

end PredictiveParsing
