import PredictiveParsing.Journal
import PredictiveParsing.Proofs.CellCount
import PredictiveParsing.Proofs.FaultlessRuns

/-! Warnings that are given while a table is filled. Each cell has one for every change of the
rule that claims it, in the order of declaration, and each of them belongs to a conflict.
-/

namespace PredictiveParsing

-----------------------------------------------------------------------------------------
-- Changes along a list of rules
-----------------------------------------------------------------------------------------

namespace Rule

/-- The change from the rule of a cell, if there is one, to a rule that does not count as it. -/
def changeFrom (r : Rule) : Option Rule → List (Rule × Rule)
  | some old => if r.same old then [] else [(old, r)]
  | none => []

/-- The changes that rules make to a cell one after another. -/
def changesFrom : Option Rule → List Rule → List (Rule × Rule)
  | _, [] => []
  | held, r :: rules => r.changeFrom held ++ changesFrom (some r) rules

/-- The changes are those from a rule to the next one that do not count as one, by induction on the
rules.
-/
theorem changesFrom_some (r : Rule) (rules : List Rule)
    : changesFrom (some r) rules
      = ((r :: rules).zip rules).filter fun pair => !pair.2.same pair.1 := by
  induction rules generalizing r with
  | nil => rfl
  | cons s rules ih =>
      rw [changesFrom, ih, List.zip_cons_cons, List.filter_cons, changeFrom]
      cases s.same r <;> rfl

/-- The changes to an empty cell are between neighbours that do not count as one. -/
theorem changesFrom_none (rules : List Rule)
    : changesFrom none rules
      = (rules.zip rules.tail).filter fun pair => !pair.2.same pair.1 := by
  cases rules with
  | nil => rfl
  | cons r rules => exact changesFrom_some r rules

end Rule

-----------------------------------------------------------------------------------------
-- Warnings of one cell
-----------------------------------------------------------------------------------------

theorem Table.cell?_congr (t : Table) {n m la v : Value} (row : n.key = m.key)
    (column : la.key = v.key)
    : t.cell? n la = t.cell? m v := by
  rw [cell?, cell?, ValueMap.get?_congr t row]
  exact congrArg _ (funext fun row => ValueMap.get?_congr row column)

namespace Filling

/-- The rules of a cell that were replaced, each with the rule that took its place. -/
def replacedAt (f : Filling) (n la : Value) : List (Rule × Rule) :=
  (f.overwrites.filter fun o => decide (o.nonterm.key = n.key ∧ o.lookahead.key = la.key)).map
    fun o => (o.old, o.new)

/-- Entering a rule changes no other cell than its own, and that one only if it holds a different
rule.
-/
theorem replacedAt_put (r : Rule) (f : Filling) (la n v : Value)
    : (put r f la).replacedAt n v
      = f.replacedAt n v
        ++ if r.lhs.key = n.key ∧ la.key = v.key then r.changeFrom (f.table.cell? n v) else [] := by
  rw [replacedAt, put, List.filter_append, List.map_append, ← replacedAt]
  congr 1
  by_cases here : r.lhs.key = n.key ∧ la.key = v.key
  · rw [if_pos here, Table.overwrite?, f.table.cell?_congr here.1 here.2]
    cases f.table.cell? n v with
    | none => rfl
    | some old => cases same : r.same old <;> simp [Rule.changeFrom, same, here]
  · rw [if_neg here, Table.overwrite?]
    cases f.table.cell? r.lhs la with
    | none => rfl
    | some old =>
        cases same : r.same old with
        | true => simp [same]
        | false => simpa [same] using here

/-- Only the first lookahead that counts as the one of a cell changes its rule, by induction on
the lookaheads.
-/
theorem replacedAt_foldl_put (r : Rule) (lookaheads : List Value) (f : Filling) (n v : Value)
    : (lookaheads.foldl (put r) f).replacedAt n v
      = f.replacedAt n v
        ++ if r.lhs.key = n.key ∧ ∃ la ∈ lookaheads, la.key = v.key then
            r.changeFrom (f.table.cell? n v)
          else [] := by
  induction lookaheads generalizing f with
  | nil => simp
  | cons la lookaheads ih =>
      rw [List.foldl_cons, ih, replacedAt_put, put, Table.cell?_put, List.append_assoc]
      simp only [List.exists_mem_cons_iff]
      by_cases row : r.lhs.key = n.key <;> by_cases here : la.key = v.key
      · simp [row, here, Rule.changeFrom]
      all_goals simp [row, here]

/-- What is replaced in a cell are the changes that the rules claiming it make, by induction on
the rules that are entered.
-/
theorem Enters.replacedAt_eq {first follow : SetMap} {rules : List Rule} {f result : Filling}
    (enters : Enters first follow rules f result) (n v : Value)
    : result.replacedAt n v
      = f.replacedAt n v
        ++ Rule.changesFrom (f.table.cell? n v)
            (rules.filter fun r =>
              decide (r.lhs.key = n.key) && (r.directingSet first follow).has v) := by
  induction enters with
  | nil => simp [Rule.changesFrom]
  | @cons r rules lookaheads f result order _ ih =>
      -- the rule is entered into the cell exactly if it claims it
      have claims : (∃ la ∈ lookaheads, la.key = v.key)
          ↔ (r.directingSet first follow).has v = true := by
        rw [← exists_lookahead_iff]
        simp only [order.mem_iff]
      simp only [ih, replacedAt_foldl_put, cell?_foldl_put_of_perm order, claims, List.filter_cons,
        Bool.and_eq_true, decide_eq_true_eq]
      split
      · rw [Rule.changesFrom, List.append_assoc]
      · rw [List.append_nil]

end Filling

section Neighbours

variable {α : Type}

/-- Of two neighbours in a list, the first stands before the second. By induction on the list. -/
theorem sublist_of_neighbours {a b : α} {as : List α} (neighbours : (a, b) ∈ as.zip as.tail)
    : [a, b].Sublist as := by
  induction as with
  | nil => cases neighbours
  | cons c as ih =>
      cases as with
      | nil => cases neighbours
      | cons d as =>
          rcases List.mem_cons.mp neighbours with here | later
          · cases here
            exact ((List.nil_sublist as).cons_cons b).cons_cons a
          · exact (ih later).cons c

/-- If neighbours are equal, all elements equal the first one, by induction on the list. -/
theorem eq_of_neighbours_eq {a b : α} {as : List α}
    (equal : ∀ pair ∈ (a :: as).zip as, pair.1 = pair.2) (member : b ∈ a :: as)
    : b = a := by
  induction as generalizing a with
  | nil => exact List.mem_singleton.mp member
  | cons c as ih =>
      rw [List.zip_cons_cons, List.forall_mem_cons] at equal
      obtain ⟨first, later⟩ := equal
      rcases List.mem_cons.mp member with rfl | member
      · rfl
      · exact (ih later member).trans first.symm

end Neighbours

-----------------------------------------------------------------------------------------
-- Warnings while the rules of a grammar are entered
-----------------------------------------------------------------------------------------

/-- A declared symbol is its own representative, since its name is a text. -/
theorem Symbol.Declared.key_eq {nonterms terms : List Text} {s : Symbol}
    (declared : s.Declared nonterms terms)
    : s.key = s := by
  cases s with
  | nonterm name =>
      obtain ⟨n, _, rfl⟩ := declared
      rfl
  | term name =>
      obtain ⟨t, _, rfl⟩ := declared
      rfl
  | endMark => rfl

theorem Rule.Declared.key_eq {nonterms terms : List Text} {r : Rule}
    (declared : r.Declared nonterms terms)
    : r.key = r := by
  obtain ⟨⟨n, _, head⟩, body⟩ := declared
  have symbols : r.body.map Symbol.key = r.body :=
    (List.map_congr_left fun s hs => (body s hs).key_eq).trans (List.map_id _)
  rw [Rule.key, symbols, head, Value.key, ← head]

namespace Grammar

variable {g : Grammar} {first follow : SetMap}

/-- Two rules of a grammar count as one only if they are equal. -/
theorem same_iff_eq {r s : Rule} (hr : r ∈ g.rules) (hs : s ∈ g.rules)
    : r.same s = true ↔ r = s := by
  rw [Rule.same, decide_eq_true_eq, (g.rules_declared r hr).key_eq, (g.rules_declared s hs).key_eq]

/-- The rules of a nonterminal that have a lookahead in their directing sets. -/
def claimants (g : Grammar) (first follow : SetMap) (n la : Value) : List Rule :=
  g.rules.filter fun r => decide (r.lhs = n) && (r.directingSet first follow).has la

theorem mem_claimants {n la : Value} {r : Rule}
    : r ∈ g.claimants first follow n la
      ↔ r ∈ g.rules ∧ r.lhs = n ∧ (r.directingSet first follow).has la = true := by
  simp [claimants]

section Warnings

variable {f : Filling} (enters : Filling.Enters first follow g.rules (.start g) f)

include enters

/-- What is replaced in a cell are the neighbours that differ among the rules claiming it. -/
theorem replacedAt_of_enters (n la : Value)
    : f.replacedAt n la
      = let rules := g.claimants first follow n la
        (rules.zip rules.tail).filter fun pair => decide (pair.1 ≠ pair.2) := by
  have row : g.rules.filter (fun r =>
        decide (r.lhs.key = n.key) && (r.directingSet first follow).has la)
      = g.claimants first follow n la :=
    List.filter_congr fun r member => by simp only [lhs_key_iff member]
  have none : (Filling.start g).replacedAt n la = [] := rfl
  rw [enters.replacedAt_eq, none, List.nil_append, cell?_start, row, Rule.changesFrom_none]
  refine List.filter_congr fun pair neighbours => ?_
  have ordered := sublist_of_neighbours neighbours
  have old := (mem_claimants.mp (ordered.subset (by simp : pair.1 ∈ [pair.1, pair.2]))).1
  have new := (mem_claimants.mp (ordered.subset (by simp : pair.2 ∈ [pair.1, pair.2]))).1
  rw [Bool.eq_iff_iff, Bool.not_eq_true', ← Bool.not_eq_true, same_iff_eq new old,
    decide_eq_true_eq]
  exact ne_comm

/-- A warning names two different rules that claim the cell, one behind the other. -/
theorem sublist_of_overwrite {o : Overwrite} (warned : o ∈ f.overwrites)
    : [o.old, o.new].Sublist (g.claimants first follow o.new.lhs o.lookahead)
      ∧ o.nonterm = o.new.lhs
      ∧ o.old ≠ o.new := by
  have listed : (o.old, o.new) ∈ f.replacedAt o.nonterm o.lookahead := by
    refine List.mem_map.mpr ⟨o, List.mem_filter.mpr ⟨warned, ?_⟩, rfl⟩
    simp
  rw [replacedAt_of_enters enters, List.mem_filter, decide_eq_true_eq] at listed
  have ordered := sublist_of_neighbours listed.1
  have row := (mem_claimants.mp (ordered.subset (by simp : o.new ∈ [o.old, o.new]))).2.1
  rw [← row] at ordered
  exact ⟨ordered, row.symm, listed.2⟩

/-- A warning belongs to the conflict of its two rules. -/
theorem conflict_of_overwrite {o : Overwrite} (warned : o ∈ f.overwrites)
    : ∃ c ∈ g.conflicts first follow,
        c.nonterm = o.nonterm
        ∧ c.first = o.old
        ∧ c.second = o.new
        ∧ c.lookaheads.has o.lookahead = true := by
  obtain ⟨ordered, row, _⟩ := sublist_of_overwrite enters warned
  obtain ⟨_, old, left⟩ := mem_claimants.mp (ordered.subset (by simp : o.old ∈ [o.old, o.new]))
  obtain ⟨_, _, right⟩ := mem_claimants.mp (ordered.subset (by simp : o.new ∈ [o.old, o.new]))
  have clash : o.old.Clashes first follow o.new := ⟨old, o.lookahead, left, right⟩
  refine ⟨o.old.conflictWith first follow o.new,
    mem_conflicts.mpr ⟨_, _, ordered.trans List.filter_sublist, clash, rfl⟩, ?_, rfl, rfl, ?_⟩
  · rw [row]
    exact old
  · simp [Rule.conflictWith, left, right]

/-- Without a warning, all rules that claim a cell are equal. -/
theorem eq_of_no_overwrites (silent : f.overwrites = []) {n la : Value} {r s : Rule}
    (hr : r ∈ g.claimants first follow n la) (hs : s ∈ g.claimants first follow n la)
    : r = s := by
  have none : f.replacedAt n la = [] := by rw [Filling.replacedAt, silent]; rfl
  rw [replacedAt_of_enters enters, List.filter_eq_nil_iff] at none
  cases rules : g.claimants first follow n la with
  | nil => simp [rules] at hr
  | cons t rest =>
      rw [rules] at hr hs none
      have equal : ∀ pair ∈ (t :: rest).zip rest, pair.1 = pair.2 := fun pair neighbours => by
        simpa using none pair neighbours
      exact (eq_of_neighbours_eq equal hr).trans (eq_of_neighbours_eq equal hs).symm

/-- Nothing is replaced exactly if all conflicts are between equal rules. -/
theorem overwrites_eq_nil_iff
    : f.overwrites = [] ↔ ∀ c ∈ g.conflicts first follow, c.first = c.second := by
  constructor
  · intro silent c listed
    obtain ⟨r, s, ordered, ⟨row, la, left, right⟩, rfl⟩ := mem_conflicts.mp listed
    have hr : r ∈ g.rules := ordered.subset (by simp)
    have hs : s ∈ g.rules := ordered.subset (by simp)
    exact eq_of_no_overwrites enters silent (mem_claimants.mpr ⟨hr, row, left⟩)
      (mem_claimants.mpr ⟨hs, rfl, right⟩)
  · intro equal
    rw [List.eq_nil_iff_forall_not_mem]
    intro o warned
    obtain ⟨c, listed, _, old, new, _⟩ := conflict_of_overwrite enters warned
    obtain ⟨_, _, different⟩ := sublist_of_overwrite enters warned
    exact different (by rw [← old, ← new, equal c listed])

end Warnings

-----------------------------------------------------------------------------------------
-- The journal of filling a table
-----------------------------------------------------------------------------------------

theorem exists_displayAll {items : List Value}
    (each : ∀ item ∈ items, ∃ shown, item.display = .ok shown)
    : ∃ shown, Value.displayAll items = .ok shown := by
  induction items with
  | nil => exact ⟨[], rfl⟩
  | cons item items ih =>
      obtain ⟨⟨shown, first⟩, later⟩ := List.forall_mem_cons.mp each
      obtain ⟨rest, hrest⟩ := ih later
      exact ⟨shown :: rest, by rw [Value.displayAll, first, hrest]; rfl⟩

/-- The rules of a grammar can be written, since all their names are texts. -/
theorem exists_display_of_mem {r : Rule} (member : r ∈ g.rules)
    : ∃ shown, r.display = .ok shown := by
  obtain ⟨⟨n, _, head⟩, body⟩ := g.rules_declared r member
  have word : ∀ item ∈ r.word, ∃ shown, item.display = .ok shown :=
    List.forall_mem_map.mpr fun s hs => s.exists_display_of_isNamed (body s hs).isNamed
  obtain ⟨shown, hs⟩ := exists_displayAll word
  rw [Rule.display, Rule.toValue, head]
  cases items : r.word with
  | nil => exact ⟨_, rfl⟩
  | cons item rest =>
      rw [items] at hs
      exact ⟨_, by simp only [Value.display, hs]; rfl⟩

/-- A warning between two rules of a grammar can be worded as soon as its lookahead can be
written.
-/
theorem exists_message {o : Overwrite} (new : o.new ∈ g.rules) (old : o.old ∈ g.rules)
    (row : o.nonterm = o.new.lhs) (written : ∃ shown, o.lookahead.display = .ok shown)
    : ∃ shown, o.message = .ok shown := by
  obtain ⟨⟨n, _, head⟩, _⟩ := g.rules_declared _ new
  obtain ⟨la, hla⟩ := written
  obtain ⟨first, hfirst⟩ := exists_display_of_mem new
  obtain ⟨second, hsecond⟩ := exists_display_of_mem old
  have nonterm : o.nonterm.display = .ok n := by rw [row, Rule.lhs, head]; rfl
  exact ⟨_, by rw [Overwrite.message, nonterm, hla, hfirst, hsecond]; rfl⟩

/-- A replaced rule can be reported if the lookahead can be written, since both rules are the
grammar's.
-/
theorem exists_message_of_overwrite {f : Filling}
    (enters : Filling.Enters first follow g.rules (.start g) f) {o : Overwrite}
    (warned : o ∈ f.overwrites) (written : ∃ shown, o.lookahead.display = .ok shown)
    : ∃ shown, o.message = .ok shown := by
  obtain ⟨ordered, row, _⟩ := sublist_of_overwrite enters warned
  have old := (mem_claimants.mp (ordered.subset (by simp : o.old ∈ [o.old, o.new]))).1
  have new := (mem_claimants.mp (ordered.subset (by simp : o.new ∈ [o.old, o.new]))).1
  exact exists_message new old row written

end Grammar

namespace Journal

/-- Behind a computation that succeeds, the next one goes on with its value and with what it
reported.
-/
theorem run_bind_of_run {α β : Type} {x : Journal α} {a : α} {events later : List Event}
    (ran : x.run.run events = (.ok a, later)) (next : α → Journal β)
    : (x >>= next).run.run events = (next a).run.run later := by
  rw [ExceptT.run_bind, StateT.run_bind, ran]
  rfl

/-- Events that can be worded are all reported, by induction on what they are about. -/
theorem run_report_each {α : Type} {event : α → Event} {items : List α}
    (worded : ∀ a ∈ items, ∃ shown, (event a).message = .ok shown) (events : List Event)
    : (items.forM fun a => report (event a)).run.run events
      = (.ok (), events ++ items.map event) := by
  induction items generalizing events with
  | nil => rw [List.map_nil, List.append_nil]; rfl
  | cons a items ih =>
      obtain ⟨⟨shown, first⟩, later⟩ := List.forall_mem_cons.mp worded
      have reported := run_report first events
      rw [List.forM, run_bind_of_run reported, ih later, List.map_cons, List.append_assoc]
      rfl

end Journal

namespace Grammar

variable {g : Grammar} {first follow : SetMap}

/-- The journal of filling a table has its warnings in order, and the number of cells. -/
theorem run_table (worded : ∀ o ∈ (Filling.ofGrammar g first follow).overwrites,
      ∃ shown, o.lookahead.display = .ok shown) (events : List Event)
    : (Journal.table g first follow).run.run events
      = (.ok (g.table first follow),
          events ++ (Filling.ofGrammar g first follow).overwrites.map .overwritten
            ++ [.tableBuilt (g.table first follow).cellCount]) := by
  have enters := g.enters_ofGrammar first follow
  have messages : ∀ o ∈ (Filling.ofGrammar g first follow).overwrites,
      ∃ shown, (Event.overwritten o).message = .ok shown :=
    fun o ho => exists_message_of_overwrite enters ho (worded o ho)
  have warned := Journal.run_report_each messages events
  rw [Journal.table, Journal.run_bind_of_run warned]
  rfl

/-- While a table is filled, in whatever order each rule is entered for its lookaheads, there is
one warning in each cell for each two neighbours that differ among the rules of the nonterminal
that have the lookahead in their directing sets, in the order of declaration, and there are no
other warnings. Each warning belongs to the conflict of its two rules, so that there is none if
and only if every conflict is one of a repeated rule. The journal has the warnings in order, as
long as the lookaheads can be written.
-/
theorem overwrites_between_claimants (g : Grammar) (first follow : SetMap)
    : (∀ f, Filling.Enters first follow g.rules (.start g) f
        → (∀ n la,
            let rules := g.rules.filter fun r =>
              decide (r.lhs = n) && (r.directingSet first follow).has la
            (f.overwrites.filter fun o =>
                decide (o.nonterm = n ∧ o.lookahead.key = la.key)).map (fun o => (o.old, o.new))
              = (rules.zip rules.tail).filter fun pair => decide (pair.1 ≠ pair.2))
          ∧ (∀ o ∈ f.overwrites,
              ∃ c ∈ g.conflicts first follow,
                c.nonterm = o.nonterm
                ∧ c.first = o.old
                ∧ c.second = o.new
                ∧ c.lookaheads.has o.lookahead = true)
          ∧ (f.overwrites = [] ↔ ∀ c ∈ g.conflicts first follow, c.first = c.second)
          ∧ (g.hasNoConflict first follow = true → f.overwrites = []))
      ∧ ∀ events,
          let filling := Filling.ofGrammar g first follow
          (∀ o ∈ filling.overwrites, ∃ shown, o.lookahead.display = .ok shown)
          → (Journal.table g first follow).run.run events
            = (.ok filling.table,
                events ++ filling.overwrites.map .overwritten
                  ++ [.tableBuilt filling.table.cellCount]) := by
  refine ⟨fun f enters => ⟨fun n la => ?_, fun o warned => conflict_of_overwrite enters warned,
    overwrites_eq_nil_iff enters, fun none => ?_⟩, fun events worded => run_table worded events⟩
  · refine Eq.trans ?_ (replacedAt_of_enters enters n la)
    rw [Filling.replacedAt]
    congr 1
    refine List.filter_congr fun o warned => ?_
    obtain ⟨ordered, row, _⟩ := sublist_of_overwrite enters warned
    have new := (mem_claimants.mp (ordered.subset (by simp : o.new ∈ [o.old, o.new]))).1
    simp only [row, lhs_key_iff new]
  · rw [overwrites_eq_nil_iff enters, List.isEmpty_iff.mp none]
    simp

theorem overwrites_between_claimants_repeatedLetter
    : let g := repeatedLetter
      let filling := Filling.ofGrammar g ∅ repeatedFollow
      let silent := Filling.ofGrammar brackets brackets.first (brackets.follow brackets.first
        brackets.nullable)
      let letter : Value := .term (.text (.ofString "c"))
      Filling.Enters ∅ repeatedFollow g.rules (.start g) filling
      ∧ (filling.overwrites.filter fun o =>
          decide (o.nonterm = .nonterm (.text (.ofString "S")) ∧ o.lookahead.key = letter.key)).map
            (fun o => (o.old, o.new))
        = [(g.rules[1], g.rules[2])]
      ∧ (∀ o ∈ filling.overwrites, ∃ shown, o.lookahead.display = .ok shown)
      ∧ (Journal.table g ∅ repeatedFollow).run.run []
        = (.ok filling.table, filling.overwrites.map .overwritten
            ++ [.tableBuilt filling.table.cellCount])
      ∧ brackets.isLL1 = true
      ∧ silent.overwrites = [] := by
  intro g filling silent letter
  have enters := g.enters_ofGrammar ∅ repeatedFollow
  obtain ⟨orders, journal⟩ := g.overwrites_between_claimants ∅ repeatedFollow
  have single : filling.overwrites.map Overwrite.lookahead = [letter] := by decide
  have worded : ∀ o ∈ filling.overwrites, ∃ shown, o.lookahead.display = .ok shown := by
    intro o warned
    have listed := List.mem_map_of_mem (f := Overwrite.lookahead) warned
    rw [single, List.mem_singleton] at listed
    exact ⟨_, by rw [listed]; rfl⟩
  have ll1 : brackets.isLL1 = true := by decide
  have none := ((brackets.overwrites_between_claimants _ _).1 silent
    (brackets.enters_ofGrammar _ _)).2.2.2 ll1
  exact ⟨enters, ((orders filling enters).1 _ letter).trans (by decide), worded,
    journal [] worded, ll1, none⟩

end Grammar

end PredictiveParsing
