import PredictiveParsing.Proofs.SymbolNames

/-! Edits of a table that is in use. An edit looks up a row and a cell, compares, warns and writes,
one step after another, and may fail in between. Nothing is written before it can no longer fail.
-/

namespace PredictiveParsing

-----------------------------------------------------------------------------------------
-- A table that is edited in place
-----------------------------------------------------------------------------------------

/-- A table in use, and what has been reported so far. -/
structure Desk where
  table : Table
  events : List Event

namespace Desk

/-- A computation that works in place and may fail. What it has done before it fails stays done. -/
abbrev Work (α : Type) := ExceptT Fault (StateM Desk) α

/-- The row of a rule's nonterminal, which has to be there. -/
def rowOf (r : Rule) : Work Row := do
  r.lhs.checkHashable
  let d ← get
  match d.table.get? r.lhs with
  | some row => return row
  | none => throw (.missingKey r.lhs)

/-- What entering a rule into a cell of a row replaces, if that is a different rule. -/
def replaced? (r : Rule) (la : Value) (row : Row) : Option Overwrite :=
  match row.get? la with
  | some old => if r.same old then none else some ⟨r.lhs, la, r, old⟩
  | none => none

/-- Warns of a rule that is replaced, unless the warning cannot be worded. -/
def warn : Option Overwrite → Work Unit
  | none => return ()
  | some o => do
      let _ ← o.message
      modify fun d => { d with events := d.events ++ [.overwritten o] }

/-- Enters a rule into a cell, with a warning if the cell holds a different rule. -/
def enter (r : Rule) (la : Value) : Work Unit := do
  let row ← rowOf r
  la.checkHashable
  warn (replaced? r la row)
  modify fun d => { d with table := d.table.insert r.lhs (row.insert la r) }

/-- How an edit ends, and what it leaves. -/
def attempt (d : Desk) (edit : Rule × Value) : Except Fault Unit × Desk :=
  (enter edit.1 edit.2).run.run d

/-- What edits leave that are tried one after another, whether they succeed or fail. -/
def after (d : Desk) (edits : List (Rule × Value)) : Desk :=
  edits.foldl (fun d edit => (d.attempt edit).2) d

/-- Those edits that succeed when all of them are tried one after another. -/
def entered : Desk → List (Rule × Value) → List (Rule × Value)
  | _, [] => []
  | d, edit :: edits =>
      match d.attempt edit with
      | (.ok _, next) => edit :: next.entered edits
      | (.error _, next) => next.entered edits

/-- What a computation leaves that gives a table to be used from now on, unless it fails. -/
def replaceTable (d : Desk) : Except Fault Table × List Event → Except Fault Unit × Desk
  | (.ok table, events) => (.ok (), ⟨table, events⟩)
  | (.error fault, events) => (.error fault, ⟨d.table, events⟩)

-----------------------------------------------------------------------------------------
-- What an edit can do
-----------------------------------------------------------------------------------------

/-- The nonterminal of a rule can be looked up, and it has a row. -/
def HasRow (d : Desk) (r : Rule) : Prop :=
  r.lhs.hashable = true ∧ d.table.hasKey r.lhs = true

/-- The ways in which an edit can end. All faults come before the first change. -/
inductive Ends (d : Desk) (r : Rule) (la : Value) : Except Fault Unit × Desk → Prop where
  /-- The rule's nonterminal cannot be looked up. -/
  | badRow (hashable : r.lhs.hashable = false) : d.Ends r la (.error .unhashable, d)
  /-- The rule's nonterminal has no row. -/
  | noRow (hashable : r.lhs.hashable = true) (absent : d.table.hasKey r.lhs = false)
    : d.Ends r la (.error (.missingKey r.lhs), d)
  /-- The lookahead cannot be looked up. -/
  | badLookahead (row : d.HasRow r) (hashable : la.hashable = false)
    : d.Ends r la (.error .unhashable, d)
  /-- A different rule is in the cell, and the warning cannot be worded. -/
  | unworded {o : Overwrite} {fault : Fault} (row : d.HasRow r)
    (hashable : la.hashable = true) (different : d.table.overwrite? r la = some o)
    (failed : o.message = .error fault)
    : d.Ends r la (.error fault, d)
  /-- A different rule is in the cell. -/
  | warned {o : Overwrite} {text : Text} (row : d.HasRow r)
    (hashable : la.hashable = true) (different : d.table.overwrite? r la = some o)
    (worded : o.message = .ok text)
    : d.Ends r la (.ok (), ⟨d.table.put r la, d.events ++ [.overwritten o]⟩)
  /-- No different rule is in the cell. -/
  | silent (row : d.HasRow r) (hashable : la.hashable = true)
    (same : d.table.overwrite? r la = none)
    : d.Ends r la (.ok (), ⟨d.table.put r la, d.events⟩)

/-- One computation after another: the second one starts from what the first one left, unless that
failed.
-/
theorem run_bind {α β : Type} (x : Work α) (next : α → Work β) (d : Desk)
    : (x >>= next).run.run d
      = match x.run.run d with
        | (.ok a, d) => (next a).run.run d
        | (.error fault, d) => (.error fault, d) := by
  rw [ExceptT.run_bind, StateT.run_bind]
  rcases x.run.run d with ⟨result, later⟩
  cases result <;> rfl

/-- A look-up leaves the table and the reports as they are, whether or not it fails. -/
theorem run_checkHashable (v : Value) (d : Desk)
    : (liftM v.checkHashable : Work Unit).run.run d
      = (if v.hashable then .ok () else .error .unhashable, d) := by
  rw [Value.checkHashable]
  cases v.hashable <;> rfl

/-- Asking for a row leaves the table and the reports as they are. It fails if the nonterminal
cannot be looked up, and also if it has no row.
-/
theorem run_rowOf (r : Rule) (d : Desk)
    : (rowOf r).run.run d
      = (if r.lhs.hashable then
          match d.table.get? r.lhs with
          | some row => .ok row
          | none => .error (.missingKey r.lhs)
        else .error .unhashable, d) := by
  rw [rowOf, run_bind, run_checkHashable]
  cases r.lhs.hashable with
  | false => rfl
  | true =>
      simp only [if_true]
      rw [run_bind]
      show (match d.table.get? r.lhs with
        | some row => pure row
        | none => throw (.missingKey r.lhs) : Work Row).run.run d = _
      cases d.table.get? r.lhs <;> rfl

/-- A warning is reported if it can be worded, and otherwise fails without a report. -/
theorem run_warn_some (o : Overwrite) (d : Desk)
    : (warn (some o)).run.run d
      = match o.message with
        | .ok _ => (.ok (), { d with events := d.events ++ [.overwritten o] })
        | .error fault => (.error fault, d) := by
  rw [warn, run_bind]
  cases o.message <;> rfl

/-- What is replaced in the table is what is replaced in the row of the rule's nonterminal. -/
theorem overwrite?_eq_replaced? {t : Table} {r : Rule} {row : Row} (found : t.get? r.lhs = some row)
    (la : Value)
    : t.overwrite? r la = replaced? r la row := by
  rw [Table.overwrite?, Table.cell?, found]
  rfl

/-- The steps of an edit, one after another, lead to one of these ends. -/
theorem ends_attempt (d : Desk) (r : Rule) (la : Value) : d.Ends r la (d.attempt (r, la)) := by
  rw [attempt, enter, run_bind, run_rowOf]
  cases row : r.lhs.hashable with
  | false => exact .badRow row
  | true =>
      cases found : d.table.get? r.lhs with
      | none => exact .noRow row (ValueMap.get?_eq_none_iff.mp found)
      | some cells =>
          have present : d.HasRow r := by
            refine ⟨row, ?_⟩
            rw [ValueMap.hasKey_iff_get?, found]
            exact Option.some_ne_none cells
          -- in place the row is changed, which is the same as putting a changed row
          have put : d.table.put r la = d.table.insert r.lhs (cells.insert la r) := by
            rw [Table.put, found]
            rfl
          simp only [if_true]
          rw [run_bind, run_checkHashable]
          cases hashable : la.hashable with
          | false => exact .badLookahead present hashable
          | true =>
              simp only [if_true]
              rw [run_bind, ← overwrite?_eq_replaced? found la]
              cases held : d.table.overwrite? r la with
              | none =>
                  have ended := Ends.silent present hashable held
                  rw [put] at ended
                  exact ended
              | some o =>
                  rw [run_warn_some]
                  cases worded : o.message with
                  | error fault => exact .unworded present hashable held worded
                  | ok text =>
                      have ended := Ends.warned present hashable held worded
                      rw [put] at ended
                      exact ended

/-- Where entering a rule into a table fails, the table in use stays as it is. -/
theorem replaceTable_of_error {d : Desk} {r : Rule} {la : Value} {fault : Fault}
    (failed : d.table.setCell r la = .error fault)
    : d.replaceTable ((Journal.setCell d.table r la).run.run d.events) = (.error fault, d) := by
  rw [Journal.setCell, failed]
  rfl

/-- Editing in place does what entering a rule into a table does, where a failure keeps the table.
-/
theorem attempt_eq_replaceTable (d : Desk) (r : Rule) (la : Value)
    : d.attempt (r, la) = d.replaceTable ((Journal.setCell d.table r la).run.run d.events) := by
  have ends := d.ends_attempt r la
  generalize d.attempt (r, la) = ended at ends ⊢
  cases ends with
  | badRow hashable =>
      have failed : d.table.setCell r la = .error .unhashable := by
        simp only [Table.setCell, Value.checkHashable, hashable]
        rfl
      rw [replaceTable_of_error failed]
  | noRow hashable absent =>
      have failed : d.table.setCell r la = .error (.missingKey r.lhs) := by
        simp only [Table.setCell, Value.checkHashable, hashable, absent]
        rfl
      rw [replaceTable_of_error failed]
  | badLookahead row hashable =>
      have failed : d.table.setCell r la = .error .unhashable := by
        simp only [Table.setCell, Value.checkHashable, row.1, row.2, hashable]
        rfl
      rw [replaceTable_of_error failed]
  | @unworded o fault row hashable different unworded =>
      have failed : d.table.setCell r la = .error fault := by
        simp only [Table.setCell, Value.checkHashable, row.1, row.2, hashable, different, unworded]
        rfl
      rw [replaceTable_of_error failed]
  | @warned o text row hashable different worded =>
      have entered : d.table.setCell r la = .ok (d.table.put r la, some o) := by
        simp only [Table.setCell, Value.checkHashable, row.1, row.2, hashable, different, worded]
        rfl
      have message : (Event.overwritten o).message = .ok text := worded
      have reported := Journal.run_report message d.events
      rw [Journal.setCell, entered]
      show _ = d.replaceTable ((do Journal.report (.overwritten o); return d.table.put r la
        : Journal Table).run.run d.events)
      rw [Journal.run_bind_of_run reported]
      rfl
  | silent row hashable same =>
      have entered : d.table.setCell r la = .ok (d.table.put r la, none) := by
        simp only [Table.setCell, Value.checkHashable, row.1, row.2, hashable, same]
        rfl
      rw [Journal.setCell, entered]
      rfl

-----------------------------------------------------------------------------------------
-- What edits leave
-----------------------------------------------------------------------------------------

section Edits

variable {d next : Desk} {edit : Rule × Value}

/-- An edit that fails has changed nothing. -/
theorem eq_of_attempt_error {fault : Fault} (failed : d.attempt edit = (.error fault, next))
    : next = d := by
  have ends := d.ends_attempt edit.1 edit.2
  rw [failed] at ends
  cases ends <;> rfl

/-- An edit that succeeds finds its row and enters its rule, by the ways in which it can end. -/
theorem table_of_attempt_ok (succeeded : d.attempt edit = (.ok (), next))
    : d.HasRow edit.1 ∧ next.table = d.table.put edit.1 edit.2 := by
  have ends := d.ends_attempt edit.1 edit.2
  rw [succeeded] at ends
  cases ends with
  | warned row | silent row => exact ⟨row, rfl⟩

/-- Without a row an edit fails and changes nothing, by the ways in which it can end. -/
theorem attempt_of_noRow {r : Rule} (none : ¬ d.HasRow r) (la : Value)
    : d.attempt (r, la)
      = (.error (if r.lhs.hashable then .missingKey r.lhs else .unhashable), d) := by
  have ends := d.ends_attempt r la
  generalize d.attempt (r, la) = ended at ends ⊢
  cases ends with
  | badRow hashable | noRow hashable => rw [hashable]; rfl
  | badLookahead row | unworded row | warned row | silent row => exact absurd row none

/-- For a lookahead that cannot be looked up an edit fails and changes nothing. -/
theorem attempt_of_badLookahead {r : Rule} {la : Value} (row : d.HasRow r)
    (unfit : la.hashable = false)
    : d.attempt (r, la) = (.error .unhashable, d) := by
  have ends := d.ends_attempt r la
  generalize d.attempt (r, la) = ended at ends ⊢
  cases ends with
  | badRow | badLookahead => rfl
  | noRow _ absent => simp [row.2] at absent
  | unworded _ hashable | warned _ hashable | silent _ hashable => simp [unfit] at hashable

/-- An edit adds no row and removes none. -/
theorem keys_attempt (d : Desk) (edit : Rule × Value)
    : (d.attempt edit).2.table.keys = d.table.keys := by
  rcases ended : d.attempt edit with ⟨_ | _, next⟩
  · rw [eq_of_attempt_error ended]
  · obtain ⟨row, table⟩ := table_of_attempt_ok ended
    exact table ▸ Table.keys_put row.2 edit.2

/-- Edits add no row and remove none, by induction on them. -/
theorem keys_after (d : Desk) (edits : List (Rule × Value))
    : (d.after edits).table.keys = d.table.keys := by
  apply foldl_invariant (fun later : Desk => later.table.keys = d.table.keys) _ rfl
  intro edit _ later keys
  rw [keys_attempt, keys]

/-- The rule that comes last, among those of edits, for a nonterminal and a lookahead. -/
def lastFor (n v : Value) (edits : List (Rule × Value)) : Option Rule :=
  (edits.reverse.find? fun edit =>
    decide (edit.1.lhs.key = n.key ∧ edit.2.key = v.key)).map Prod.fst

/-- An edit is the last one for its cell if none of the later ones is. -/
theorem lastFor_cons (n v : Value) (edit : Rule × Value) (edits : List (Rule × Value))
    : lastFor n v (edit :: edits)
      = (lastFor n v edits).or
          (if edit.1.lhs.key = n.key ∧ edit.2.key = v.key then some edit.1 else none) := by
  rw [lastFor, List.reverse_cons, List.find?_append, lastFor]
  cases edits.reverse.find? _ with
  | some found => rfl
  | none => by_cases here : edit.1.lhs.key = n.key ∧ edit.2.key = v.key <;> simp [here]

theorem key_of_lastFor {n v : Value} {edits : List (Rule × Value)} {r : Rule}
    (last : lastFor n v edits = some r)
    : r.lhs.key = n.key := by
  obtain ⟨edit, found, rfl⟩ := Option.map_eq_some_iff.mp last
  have here := List.find?_some found
  rw [decide_eq_true_eq] at here
  exact here.1

/-- A cell holds the rule of the last edit of it that succeeds, or else what it held before, by
induction on the edits.
-/
theorem cell?_after (d : Desk) (edits : List (Rule × Value)) (n v : Value)
    : (d.after edits).table.cell? n v
      = (lastFor n v (d.entered edits)).or (d.table.cell? n v) := by
  induction edits generalizing d with
  | nil => rfl
  | cons edit edits ih =>
      rw [after, List.foldl_cons, ← after, ih, entered]
      rcases ended : d.attempt edit with ⟨_ | _, next⟩
      · rw [eq_of_attempt_error ended]
      · obtain ⟨_, table⟩ := table_of_attempt_ok ended
        rw [table, Table.cell?_put, lastFor_cons, Option.or_assoc]
        by_cases here : edit.1.lhs.key = n.key ∧ edit.2.key = v.key <;> simp [here]

end Edits

-----------------------------------------------------------------------------------------
-- Warnings of one edit
-----------------------------------------------------------------------------------------

/-- Something is replaced exactly if the cell holds a rule that does not count as the entered one.
-/
theorem overwrite?_eq_some_iff {t : Table} {r : Rule} {la : Value} {o : Overwrite}
    : t.overwrite? r la = some o
      ↔ ∃ old, t.cell? r.lhs la = some old ∧ r.same old = false ∧ o = ⟨r.lhs, la, r, old⟩ := by
  rw [Table.overwrite?]
  cases t.cell? r.lhs la with
  | none => simp
  | some old =>
      cases same : r.same old with
      | true => simp [same]
      | false =>
          constructor
          · intro replaced
            have only : some ⟨r.lhs, la, r, old⟩ = some o := by
              simpa only [same, Bool.false_eq_true, if_false] using replaced
            exact ⟨old, rfl, same, (Option.some.inj only).symm⟩
          · rintro ⟨other, held, _, rfl⟩
            cases held
            simp only [same, Bool.false_eq_true, if_false]

/-- An edit warns of one rule that is replaced, or of none. -/
theorem events_attempt (d : Desk) (r : Rule) (la : Value)
    : (d.attempt (r, la)).2.events = d.events
      ∨ ∃ o, (d.attempt (r, la)).2.events = d.events ++ [.overwritten o] := by
  have ends := d.ends_attempt r la
  generalize d.attempt (r, la) = ended at ends ⊢
  cases ends with
  | badRow | noRow | badLookahead | unworded | silent => exact Or.inl rfl
  | @warned o => exact Or.inr ⟨o, rfl⟩

section Warnings

variable {r : Rule} (named : r.toValue.isTextNamed = true)

include named

theorem exists_head_of_isTextNamed : ∃ n : Text, r.head = .text n := by
  rw [Rule.toValue] at named
  cases head : r.head with
  | text n => exact ⟨n, rfl⟩
  | _ => simp [head, Value.isTextNamed] at named

/-- Whether a rule with texts as names can be reported as taking a cell is up to the lookahead and
the rule that was there.
-/
theorem message_eq (la : Value) (old : Rule)
    : (∃ text shown shown',
          la.display = .ok shown
          ∧ old.display = .ok shown'
          ∧ (⟨r.lhs, la, r, old⟩ : Overwrite).message = .ok text)
      ∨ ∃ fault,
          (la.display = .error fault ∨ old.display = .error fault)
          ∧ (⟨r.lhs, la, r, old⟩ : Overwrite).message = .error fault := by
  obtain ⟨n, head⟩ := exists_head_of_isTextNamed named
  have lhs : r.lhs.display = .ok n := by rw [Rule.lhs, head]; rfl
  obtain ⟨new, hnew⟩ : ∃ shown, r.display = .ok shown := Value.exists_display_of_isTextNamed named
  rw [Overwrite.message]
  simp only [lhs, hnew]
  cases hla : la.display with
  | error fault => exact Or.inr ⟨fault, Or.inl rfl, rfl⟩
  | ok shown =>
      cases hold : old.display with
      | error fault => exact Or.inr ⟨fault, Or.inr rfl, rfl⟩
      | ok shown' => exact Or.inl ⟨_, shown, shown', rfl, rfl, rfl⟩

variable {d : Desk} {la : Value} (hashable : la.hashable = true)

include hashable

/-- An edit that would replace a different rule does so with a warning, or it fails because the
lookahead or the rule that is there cannot be written.
-/
theorem attempt_of_different {old : Rule} (held : d.table.cell? r.lhs la = some old)
    (changed : r.same old = false)
    : (∃ shown shown',
          la.display = .ok shown
          ∧ old.display = .ok shown'
          ∧ d.attempt (r, la)
            = (.ok (), ⟨d.table.put r la, d.events ++ [.overwritten ⟨r.lhs, la, r, old⟩]⟩))
      ∨ ∃ fault,
          (la.display = .error fault ∨ old.display = .error fault)
          ∧ d.attempt (r, la) = (.error fault, d) := by
  have replaced := overwrite?_eq_some_iff.mpr ⟨old, held, changed, rfl⟩
  have ends := d.ends_attempt r la
  generalize d.attempt (r, la) = ended at ends ⊢
  cases ends with
  | badRow other =>
      obtain ⟨n, head⟩ := exists_head_of_isTextNamed named
      simp [Rule.lhs, head, Value.hashable] at other
  | noRow _ absent =>
      rw [Table.cell?, ValueMap.get?_eq_none_iff.mpr absent, Option.bind_none] at held
      cases held
  | badLookahead _ other => simp [hashable] at other
  | silent _ _ same => simp [same] at replaced
  | unworded _ _ different failed =>
      obtain rfl := Option.some.inj (different.symm.trans replaced)
      rcases message_eq named la old with ⟨_, _, _, _, _, worded⟩ | ⟨fault, cause, failed'⟩
      · simp [worded] at failed
      · cases failed.symm.trans failed'
        exact Or.inr ⟨_, cause, rfl⟩
  | warned _ _ different worded =>
      obtain rfl := Option.some.inj (different.symm.trans replaced)
      rcases message_eq named la old with ⟨_, shown, shown', hla, hold, _⟩ | ⟨_, _, failed⟩
      · exact Or.inl ⟨shown, shown', hla, hold, rfl⟩
      · simp [worded] at failed

omit named hashable in
/-- Where nothing is replaced, nothing is reported. -/
theorem events_of_none (same : d.table.overwrite? r la = none)
    : (d.attempt (r, la)).2.events = d.events := by
  have ends := d.ends_attempt r la
  generalize d.attempt (r, la) = ended at ends ⊢
  cases ends with
  | badRow | noRow | badLookahead | unworded | silent => rfl
  | warned _ _ different => simp [same] at different

/-- A warning is given exactly if there is a different rule in the cell and both that rule and the
lookahead can be written.
-/
theorem warned_iff (o : Overwrite)
    : (d.attempt (r, la)).2.events = d.events ++ [.overwritten o]
      ↔ ∃ old,
          d.table.cell? r.lhs la = some old
          ∧ r.same old = false
          ∧ o = ⟨r.lhs, la, r, old⟩
          ∧ (∃ shown, la.display = .ok shown)
          ∧ ∃ shown, old.display = .ok shown := by
  have silence (o : Overwrite) : d.events ≠ d.events ++ [.overwritten o] := by simp
  cases different : d.table.overwrite? r la with
  | none =>
      rw [events_of_none different]
      refine iff_of_false (silence o) ?_
      rintro ⟨old, held, changed, _⟩
      simp [overwrite?_eq_some_iff.mpr ⟨old, held, changed, rfl⟩] at different
  | some p =>
      obtain ⟨old, held, changed, _⟩ := overwrite?_eq_some_iff.mp different
      rcases attempt_of_different named hashable held changed with
        ⟨shown, shown', hla, hold, ended⟩ | ⟨fault, cause, ended⟩
      · rw [ended]
        constructor
        · intro reported
          obtain rfl : (⟨r.lhs, la, r, old⟩ : Overwrite) = o := by simpa using reported
          exact ⟨old, held, changed, rfl, ⟨shown, hla⟩, shown', hold⟩
        · rintro ⟨other, held', _, rfl, _⟩
          cases held.symm.trans held'
          rfl
      · rw [ended]
        refine iff_of_false (silence o) ?_
        rintro ⟨other, held', _, _, ⟨_, hla⟩, _, hold⟩
        cases held.symm.trans held'
        rcases cause with bad | bad
        · simp [hla] at bad
        · simp [hold] at bad

end Warnings

end Desk

-----------------------------------------------------------------------------------------
-- Edits of the table of a grammar
-----------------------------------------------------------------------------------------

namespace Grammar

open Desk

variable {g : Grammar}

/-- The rows that there are by the names of the nonterminals are those that can be looked up. -/
theorem hasRow_iff {d : Desk} (keys : d.table.keys = g.nontermValues) {r : Rule}
    : d.HasRow r ↔ r.lhs ∈ g.nontermValues := by
  rw [HasRow, ValueMap.hasKey_iff_keys, keys]
  constructor
  · rintro ⟨_, l, listed, same⟩
    obtain ⟨name, _, rfl⟩ := List.mem_map.mp listed
    rwa [Value.key_eq_nonterm_text.mp same.symm]
  · intro listed
    obtain ⟨name, _, same⟩ := List.mem_map.mp listed
    exact ⟨same ▸ rfl, r.lhs, listed, rfl⟩

variable {events : List Event} {edits : List (Rule × Value)}

/-- Whatever edits are tried on the table of a grammar, its rows stay those of the declared
nonterminals.
-/
theorem keys_after_ownTable (g : Grammar) (events : List Event) (edits : List (Rule × Value))
    : ((⟨g.ownTable, events⟩ : Desk).after edits).table.keys = g.nontermValues :=
  (keys_after _ edits).trans (keys_of_enters (g.enters_ofGrammar _ _))

/-- The rule in a cell was entered for the nonterminal of its row, by an edit or before. -/
theorem lhs_of_cell_after {n la : Value} (listed : n ∈ g.nontermValues) {r : Rule}
    (cell : ((⟨g.ownTable, events⟩ : Desk).after edits).table.cell? n la = some r)
    : r.lhs = n := by
  have heads : r.lhs.key = n.key := by
    rw [cell?_after, Option.or_eq_some_iff] at cell
    rcases cell with last | ⟨_, filled⟩
    · exact key_of_lastFor last
    · exact g.keepsHeads_table _ _ n la r filled
  obtain ⟨name, _, rfl⟩ := List.mem_map.mp listed
  exact Value.key_eq_nonterm_text.mp heads

/-- A table of a grammar that was edited by hand, with edits that may have failed, still has one row
for each nonterminal, with rules for that nonterminal only, and each cell holds the rule of the last
edit of it that succeeded, or else the one that was filled in. A further edit that fails leaves
everything as it is, and so does each one for a nonterminal without row or for a lookahead that
cannot be looked up. An edit with texts as names warns exactly if the cell holds a different rule
and both that rule and the lookahead can be written; if one of the two cannot, it fails. No edit
warns of anything else. In place, edits do what entering a rule does to a table that is replaced as
a whole.
-/
theorem ownTable_after_edits (g : Grammar) (events : List Event) (edits : List (Rule × Value))
    : let start : Desk := ⟨g.ownTable, events⟩
      let d := start.after edits
      (d.table.keys = g.nontermValues
        ∧ (∀ n ∈ g.nontermValues, ∀ la r, d.table.cell? n la = some r → r.lhs = n)
        ∧ ∀ n la,
            d.table.cell? n la
              = (lastFor n la (start.entered edits)).or (g.ownTable.cell? n la))
      ∧ ∀ (r : Rule) (la : Value),
          (∀ fault next, d.attempt (r, la) = (.error fault, next) → next = d)
          ∧ (r.lhs ∉ g.nontermValues
            → d.attempt (r, la)
              = (.error (if r.lhs.hashable then .missingKey r.lhs else .unhashable), d))
          ∧ (la.hashable = false
            → r.lhs ∈ g.nontermValues
            → d.attempt (r, la) = (.error .unhashable, d))
          ∧ (r.toValue.isTextNamed = true
            → la.hashable = true
            → (∀ o,
                (d.attempt (r, la)).2.events = d.events ++ [.overwritten o]
                ↔ ∃ old,
                    d.table.cell? r.lhs la = some old
                    ∧ r.same old = false
                    ∧ o = ⟨r.lhs, la, r, old⟩
                    ∧ (∃ shown, la.display = .ok shown)
                    ∧ ∃ shown, old.display = .ok shown)
              ∧ ∀ old,
                  d.table.cell? r.lhs la = some old
                  → r.same old = false
                  → ¬ ((∃ shown, la.display = .ok shown) ∧ ∃ shown, old.display = .ok shown)
                  → ∃ fault,
                      (la.display = .error fault ∨ old.display = .error fault)
                      ∧ d.attempt (r, la) = (.error fault, d))
          ∧ ((d.attempt (r, la)).2.events = d.events
            ∨ ∃ o, (d.attempt (r, la)).2.events = d.events ++ [.overwritten o])
          ∧ d.attempt (r, la)
            = d.replaceTable ((Journal.setCell d.table r la).run.run d.events) := by
  intro start d
  have keys : d.table.keys = g.nontermValues := keys_after_ownTable g events edits
  have row {r : Rule} : d.HasRow r ↔ r.lhs ∈ g.nontermValues := hasRow_iff keys
  refine ⟨⟨keys, fun n listed la r cell => ?_, cell?_after start edits⟩, fun r la => ?_⟩
  · exact lhs_of_cell_after listed cell
  · refine ⟨fun fault next => eq_of_attempt_error, fun other => ?_, fun unfit listed => ?_,
      fun named hashable => ?_, d.events_attempt r la, d.attempt_eq_replaceTable r la⟩
    · exact attempt_of_noRow (row.not.mpr other) la
    · exact attempt_of_badLookahead (row.mpr listed) unfit
    · refine ⟨warned_iff named hashable, fun old held changed unwritten => ?_⟩
      rcases attempt_of_different named hashable held changed with ⟨_, _, hla, hold, _⟩ | failed
      · exact absurd ⟨⟨_, hla⟩, _, hold⟩ unwritten
      · exact failed

theorem ownTable_after_edits_brackets
    : let letter : Value := .term (.text (.ofString "k"))
      let old : Rule := ⟨.text (.ofString "S"), [.term (.text (.ofString "k"))]⟩
      let new : Rule := ⟨.text (.ofString "S"), []⟩
      let other : Rule := ⟨.text (.ofString "T"), []⟩
      let d := (⟨brackets.ownTable, []⟩ : Desk).after [(old, letter), (other, letter)]
      d.table.keys = brackets.nontermValues
      ∧ d.table.cell? new.lhs letter = some old
      ∧ d.attempt (other, letter) = (.error (.missingKey other.lhs), d)
      ∧ d.attempt (new, .list []) = (.error .unhashable, d)
      ∧ (d.attempt (new, letter)).2.events
        = d.events ++ [.overwritten ⟨new.lhs, letter, new, old⟩] := by
  intro letter old new other d
  obtain ⟨⟨keys, _, cells⟩, calls⟩ :=
    brackets.ownTable_after_edits [] [(old, letter), (other, letter)]
  have held : d.table.cell? new.lhs letter = some old := (cells new.lhs letter).trans (by decide)
  obtain ⟨_, absent, _⟩ := calls other letter
  obtain ⟨_, _, unfit, _⟩ := calls new (.list [])
  obtain ⟨_, _, _, warned, _⟩ := calls new letter
  refine ⟨keys, held, absent (by decide), unfit rfl (by decide), ?_⟩
  exact ((warned rfl rfl).1 _).mpr ⟨old, held, by decide, rfl, ⟨_, rfl⟩, _, rfl⟩

/-- Texts as the names of a rule and of a lookahead are not enough for a warning, since the rule
that is replaced has to be written, too. A nonterminal that cannot be looked up has no row either,
but an edit for it fails before the row is missed.
-/
theorem unwarned_edit_brackets
    : let letter : Value := .term (.text (.ofString "k"))
      let old : Rule := ⟨.text (.ofString "S"), [.nonterm (.int 5)]⟩
      let new : Rule := ⟨.text (.ofString "S"), [.term (.text (.ofString "k"))]⟩
      let unfit : Rule := ⟨.list [], []⟩
      let d := (⟨brackets.ownTable, []⟩ : Desk).after [(old, letter)]
      (new.toValue.isTextNamed = true
        ∧ letter.hashable = true
        ∧ d.table.cell? new.lhs letter = some old
        ∧ new.same old = false
        ∧ d.attempt (new, letter) = (.error (.nameNotText .int), d))
      ∧ unfit.lhs ∉ brackets.nontermValues
      ∧ d.attempt (unfit, letter) = (.error .unhashable, d) := by
  intro letter old new unfit d
  have held : d.table.cell? new.lhs letter = some old :=
    (cell?_after _ _ new.lhs letter).trans (by decide)
  refine ⟨⟨rfl, rfl, held, rfl, ?_⟩, by decide, rfl⟩
  rcases attempt_of_different rfl rfl held rfl with ⟨_, _, _, unwritten, _⟩ | ⟨_, cause, ended⟩
  · cases unwritten
  · rcases cause with bad | bad
    · cases bad
    · cases bad
      exact ended

end Grammar

end PredictiveParsing
