import Mathlib.Data.List.Find
import Mathlib.Data.List.Forall2
import PredictiveParsing.Grammar.Display
import PredictiveParsing.Proofs.CellCount
import PredictiveParsing.Proofs.CheckedLookUps
import PredictiveParsing.Proofs.DeclaredSets
import PredictiveParsing.Proofs.OverwriteWarnings
import PredictiveParsing.Proofs.WrittenRules
import PredictiveParsing.Table.Display

/-! Plain data in the place of grammars, tables and maps of sets. Symbols and rules stand there in
their written form, and rows have the names of nonterminals. Still the data are the same only where
what they are made from is the same.
-/

namespace PredictiveParsing

open CodePoint Text

-----------------------------------------------------------------------------------------
-- Ascending order
-----------------------------------------------------------------------------------------

namespace Text

theorem le_cons {c d : CodePoint} {s t : Text}
    : le (c :: s) (d :: t) = true ↔ c < d ∨ c = d ∧ le s t = true := by
  simp [le]

/-- The order of texts is transitive, by induction on the first one. -/
protected theorem le_trans {s t u : Text} (first : le s t = true) (second : le t u = true)
    : le s u = true := by
  induction s generalizing t u with
  | nil => rfl
  | cons c s ih =>
      cases t with
      | nil => cases first
      | cons d t =>
          cases u with
          | nil => cases second
          | cons e u =>
              rw [le_cons] at first second ⊢
              rcases first with less | ⟨rfl, first⟩
              · rcases second with less' | ⟨rfl, _⟩
                · exact Or.inl (less.trans less')
                · exact Or.inl less
              · exact second.imp_right fun ⟨same, second⟩ => ⟨same, ih first second⟩

/-- Of two texts one is not behind the other, by induction on both. -/
protected theorem le_total (s t : Text) : (le s t || le t s) = true := by
  induction s generalizing t with
  | nil => rfl
  | cons c s ih =>
      cases t with
      | nil => rfl
      | cons d t =>
          rw [Bool.or_eq_true, le_cons, le_cons]
          rcases lt_trichotomy c d with less | rfl | more
          · exact Or.inl (Or.inl less)
          · exact (Bool.or_eq_true_iff.mp (ih t)).imp (fun below => Or.inr ⟨rfl, below⟩)
              fun above => Or.inr ⟨rfl, above⟩
          · exact Or.inr (Or.inl more)

/-- Texts that are not behind each other are equal, by induction on both. -/
protected theorem le_antisymm {s t : Text} (first : le s t = true) (second : le t s = true)
    : s = t := by
  induction s generalizing t with
  | nil =>
      cases t with
      | nil => rfl
      | cons d t => cases second
  | cons c s ih =>
      cases t with
      | nil => cases first
      | cons d t =>
          rw [le_cons] at first second
          rcases first with less | ⟨rfl, first⟩
          · rcases second with more | ⟨same, _⟩
            · exact absurd more less.asymm
            · exact absurd same less.ne'
          · rcases second with more | ⟨_, second⟩
            · exact absurd more (lt_irrefl c)
            · rw [ih first second]

/-- Texts in ascending order tell how often each of them occurs, and nothing else. -/
theorem sort_eq_sort_iff {ss ts : List Text} : sort ss = sort ts ↔ ss.Perm ts := by
  constructor
  · intro same
    exact ((List.mergeSort_perm ss le).symm.trans (.of_eq same)).trans (List.mergeSort_perm ts le)
  · intro perm
    have ordered (us : List Text) : (sort us).Pairwise fun s t => le s t = true := by
      refine List.pairwise_mergeSort (fun s t u first second => ?_) (fun s t => ?_) us
      · exact Text.le_trans first second
      · exact Text.le_total s t
    have sorted : (sort ss).Perm (sort ts) :=
      ((List.mergeSort_perm ss le).trans perm).trans (List.mergeSort_perm ts le).symm
    exact sorted.eq_of_pairwise (fun _ _ _ _ => Text.le_antisymm) (ordered ss) (ordered ts)
end Text

-----------------------------------------------------------------------------------------
-- Maps with other keys and elements
-----------------------------------------------------------------------------------------

namespace ValueMap

variable {β γ : Type}

/-- The map that has other keys and elements in the places of those of a map. -/
def image (f : Value → Value) (h : β → γ) (m : ValueMap β) : ValueMap γ :=
  .ofList (m.entries.map (Prod.map f h))

theorem mem_keys {m : ValueMap β} {entry : Value × β} (member : entry ∈ m.entries)
    : entry.1 ∈ m.keys :=
  List.mem_map_of_mem member

section Image

variable {f : Value → Value} {h : β → γ} {known : Value → Prop} {m n : ValueMap β}
  (tells : ∀ k l, known k → known l → ((f k).key = (f l).key ↔ k.key = l.key))
  (left : ∀ k ∈ m.keys, known k) (right : ∀ k ∈ n.keys, known k)

include tells left

/-- No entry is lost where keys are told apart by what stands in their places. -/
theorem entries_image : (m.image f h).entries = m.entries.map (Prod.map f h) := by
  apply entries_ofList
  have apart := m.nodup_keys
  rw [keys] at left
  rw [keys, List.map_map] at apart
  rw [List.map_map, List.map_map]
  rw [List.Nodup, List.pairwise_map] at apart ⊢
  refine apart.imp_of_mem fun {a b} ha hb differ same => differ ?_
  exact (tells _ _ (left _ (List.mem_map_of_mem ha)) (left _ (List.mem_map_of_mem hb))).mp same

/-- The entry of what stands in the place of a key is what stands in the place of its element. -/
theorem get?_image {k : Value} (hk : known k) : (m.image f h).get? (f k) = (m.get? k).map h := by
  have found : m.entries.find? (fun entry => decide ((f entry.1).key = (f k).key))
      = m.entries.find? fun entry => decide (entry.1.key = k.key) :=
    List.find?_congr fun entry member => by
      rw [decide_eq_decide]
      exact tells _ _ (left _ (mem_keys member)) hk
  rw [get?, get?, entries_image tells left, List.find?_map]
  simp only [Function.comp_def, Prod.map_fst, found, Option.map_map]
  rfl

include right

/-- Maps are the same exactly if they are with other keys and elements, as long as keys are still
told apart and elements related.
-/
theorem same_image {related : β → β → Bool} {related' : γ → γ → Bool}
    (elements : ∀ a ∈ m.entries, ∀ b ∈ n.entries, related' (h a.2) (h b.2) = related a.2 b.2)
    : ValueMap.same related' (m.image f h) (n.image f h) = ValueMap.same related m n := by
  have sizes : ((m.image f h).size == (n.image f h).size) = (m.size == n.size) := by
    rw [size, size, entries_image tells left, entries_image tells right, List.length_map,
      List.length_map]
    rfl
  rw [ValueMap.same, ValueMap.same, sizes, entries_image tells left, List.all_map]
  congr 1
  rw [Bool.eq_iff_iff, List.all_eq_true, List.all_eq_true]
  refine forall₂_congr fun a ha => ?_
  simp only [Function.comp_apply, Prod.map_fst, Prod.map_snd,
    get?_image tells right (left _ (mem_keys ha))]
  cases found : n.get? a.1 with
  | none => rfl
  | some c =>
      obtain ⟨b, hb, _, rfl⟩ := exists_mem_of_get? found
      exact Bool.eq_iff_iff.mp (elements a ha b hb)

end Image

end ValueMap

-----------------------------------------------------------------------------------------
-- Maps of sets
-----------------------------------------------------------------------------------------

namespace Value

def bareName : Value → Value
  | .nonterm name => name
  | value => value

def IsNonterm (v : Value) : Prop :=
  ∃ name, v = .nonterm name

theorem IsNonterm.nameOf_eq {v : Value} (nonterm : v.IsNonterm) : v.nameOf = .ok v.bareName := by
  obtain ⟨name, rfl⟩ := nonterm
  rfl

/-- Nonterminals count as one exactly if their names do. -/
theorem bareName_tells (v w : Value) (hv : v.IsNonterm) (hw : w.IsNonterm)
    : v.bareName.key = w.bareName.key ↔ v.key = w.key := by
  obtain ⟨n, rfl⟩ := hv
  obtain ⟨m, rfl⟩ := hw
  simp [bareName, key]

theorem Legible.key_eq {v : Value} (legible : v.Legible) : v.key = v := by
  cases legible <;> rfl

theorem Legible.key_eq_key_iff {v w : Value} (hv : v.Legible) (hw : w.Legible)
    : v.key = w.key ↔ v = w := by
  rw [hv.key_eq, hw.key_eq]

/-- Symbols are told apart by their written forms. -/
theorem form_tells (v w : Value) (hv : v.Legible) (hw : w.Legible)
    : (Value.text v.form).key = (Value.text w.form).key ↔ v.key = w.key := by
  rw [hv.key_eq_key_iff hw]
  constructor
  · intro same
    exact hv.form_inj hw (Value.text.inj same)
  · rintro rfl
    rfl

end Value

namespace ValueSet

/-- All values of a set are symbols that are told by how they are written. -/
def Legible (s : ValueSet) : Prop :=
  ∀ v ∈ s.items, v.Legible

def forms (s : ValueSet) : List Text :=
  Text.sort (s.items.map Value.form)

variable {s t : ValueSet}

/-- The outline of a legible set is the sorted list of its written forms. -/
theorem Legible.outline_eq (legible : s.Legible) : s.outline = .ok s.forms := by
  rw [outline, Value.displayAll_eq fun v hv => ⟨_, (legible v hv).display_eq⟩]
  rfl

/-- A legible value counts as no other one, so membership is being listed. -/
theorem mem_iff_has (legible : s.Legible) {v : Value} (hv : v.Legible)
    : v ∈ s.items ↔ s.has v = true := by
  refine ⟨has_of_mem, fun found => ?_⟩
  obtain ⟨w, hw, same⟩ := has_iff.mp found
  rwa [← ((legible w hw).key_eq_key_iff hv).mp same]

/-- Sets are the same exactly if the written forms of their values are, since no two of these forms
are one.
-/
theorem forms_eq_iff (hs : s.Legible) (ht : t.Legible) : s.forms = t.forms ↔ s.same t = true := by
  have within {s t : ValueSet} (hs : s.Legible) (ht : t.Legible)
      (perm : (s.items.map Value.form).Perm (t.items.map Value.form)) : s ≤ t := by
    intro v found
    obtain ⟨u, hu, same⟩ := has_iff.mp found
    obtain ⟨w, hw, form⟩ := List.mem_map.mp (perm.subset (List.mem_map_of_mem hu))
    rw [(ht w hw).form_inj (hs u hu) form] at hw
    exact has_iff.mpr ⟨u, hw, same⟩
  rw [forms, forms, sort_eq_sort_iff, same_iff_le]
  constructor
  · intro perm
    exact ⟨within hs ht perm, within ht hs perm.symm⟩
  · rintro ⟨below, above⟩
    refine ((List.perm_ext_iff_of_nodup s.distinct.of_map t.distinct.of_map).mpr fun v => ?_).map _
    constructor
    · intro hv
      exact (mem_iff_has ht (hs v hv)).mpr (below v (has_of_mem hv))
    · intro hv
      exact (mem_iff_has hs (ht v hv)).mpr (above v (has_of_mem hv))

end ValueSet

namespace SetMap

/-- All keys of a map are nonterminals, and all values of its sets are symbols that are told by how
they are written.
-/
structure Legible (m : SetMap) : Prop where
  names : ∀ k ∈ m.keys, k.IsNonterm
  sets : ∀ entry ∈ m.entries, entry.2.Legible

variable {m n : SetMap}

/-- The outline of a map has the names of its keys, with the outlines of its sets. -/
theorem Legible.outline_eq (legible : Legible m)
    : SetMap.outline m = .ok (m.image Value.bareName ValueSet.forms) := by
  rw [SetMap.outline, mapM_eq_map fun entry member => ?_]
  · rfl
  · rw [(legible.names _ (ValueMap.mem_keys member)).nameOf_eq,
      (legible.sets entry member).outline_eq]
    rfl

/-- Two maps are outlined alike exactly if they are the same. -/
theorem Legible.same_forms (hm : Legible m) (hn : Legible n)
    : ValueMap.same (· == ·) (m.image Value.bareName ValueSet.forms)
          (n.image Value.bareName ValueSet.forms)
        = SetMap.same m n := by
  apply ValueMap.same_image Value.bareName_tells hm.names hn.names
  intro a ha b hb
  rw [Bool.eq_iff_iff, beq_iff_eq]
  exact ValueSet.forms_eq_iff (hm.sets a ha) (hn.sets b hb)

end SetMap

-----------------------------------------------------------------------------------------
-- Tables
-----------------------------------------------------------------------------------------

namespace Rule

variable {r s : Rule}

theorem eq_of_mem_rhs {v : Value} (member : v ∈ r.rhs)
    : v = .epsilon ∨ ∃ s ∈ r.body, v = s.toValue := by
  rw [rhs] at member
  split at member
  · exact Or.inl (List.mem_singleton.mp member)
  · obtain ⟨s, hs, rfl⟩ := List.mem_map.mp member
    exact Or.inr ⟨s, hs, rfl⟩

theorem Legible.symbol (legible : r.Legible) {t : Symbol} (member : t ∈ r.body)
    : t.toValue.Legible := by
  have proper : r.body.isEmpty = false := by
    cases body : r.body with
    | nil => simp [body] at member
    | cons _ _ => rfl
  apply legible.rhs
  rw [Rule.rhs, proper]
  exact List.mem_map_of_mem member

theorem Legible.key_eq (legible : r.Legible) : r.key = r := by
  obtain ⟨n, head, _⟩ := legible.head
  have symbols : r.body.map Symbol.key = r.body := by
    refine (List.map_congr_left fun t ht => ?_).trans (List.map_id _)
    exact Symbol.toValue_injective ((Symbol.key_toValue t).trans (legible.symbol ht).key_eq)
  rw [key, symbols, head, Value.key, ← head]

/-- Rules are the same exactly if they are written alike, as long as the names of their terminals
have no quotation marks.
-/
theorem Legible.form_eq_iff (hr : r.Legible) (hs : s.Legible) (fr : r.FreeOfQuotes)
    (fs : s.FreeOfQuotes)
    : r.form = s.form ↔ r.same s = true := by
  rw [same, decide_eq_true_eq, hr.key_eq, hs.key_eq]
  constructor
  · exact hr.form_inj hs fr fs
  · rintro rfl
    rfl

end Rule

namespace Row

/-- All lookaheads and rules of a row are told by how they are written. -/
structure Legible (row : Row) : Prop where
  lookaheads : ∀ la ∈ row.keys, la.Legible
  rules : ∀ cell ∈ row.entries, cell.2.Legible

def FreeOfQuotes (row : Row) : Prop :=
  ∀ cell ∈ row.entries, cell.2.FreeOfQuotes

def forms (row : Row) : ValueMap Text :=
  row.image (fun la => .text la.form) Rule.form

def ShownAs (row : Row) (shown : ValueMap Text) : Prop :=
  List.Forall₂
    (fun cell text =>
      (∃ la, cell.1.display = .ok la ∧ text.1 = .text la) ∧ cell.2.display = .ok text.2)
    row.entries shown.entries

variable {row other : Row}

/-- The outline of a row has the written forms of its lookaheads, with those of the rules. -/
theorem Legible.outline_eq (legible : Legible row) : Row.outline row = .ok (forms row) := by
  rw [Row.outline, mapM_eq_map fun cell member => ?_]
  · rfl
  · rw [(legible.lookaheads _ (ValueMap.mem_keys member)).display_eq,
      eq_ok_written (legible.rules cell member).exists_display]
    rfl

/-- The outline of a row shows it cell by cell, in order. -/
theorem Legible.shownAs (legible : Legible row) : ShownAs row (forms row) := by
  rw [ShownAs, forms, ValueMap.entries_image Value.form_tells legible.lookaheads,
    List.forall₂_map_right_iff, List.forall₂_same]
  intro cell member
  exact ⟨⟨_, (legible.lookaheads _ (ValueMap.mem_keys member)).display_eq, rfl⟩,
    eq_ok_written (legible.rules cell member).exists_display⟩

/-- Two rows without quotation marks in the names of terminals are outlined alike exactly if they
are the same.
-/
theorem Legible.same_forms (hr : Legible row) (ho : Legible other) (fr : FreeOfQuotes row)
    (fo : FreeOfQuotes other)
    : ValueMap.same (· == ·) (forms row) (forms other) = ValueMap.same Rule.same row other := by
  apply ValueMap.same_image Value.form_tells hr.lookaheads ho.lookaheads
  intro a ha b hb
  rw [Bool.eq_iff_iff, beq_iff_eq]
  exact (hr.rules a ha).form_eq_iff (ho.rules b hb) (fr a ha) (fo b hb)

end Row

namespace Table

/-- The rows of a table are those of nonterminals, and its lookaheads and rules are told by how they
are written.
-/
structure Legible (t : Table) : Prop where
  names : ∀ n ∈ t.keys, n.IsNonterm
  rows : ∀ entry ∈ t.entries, Row.Legible entry.2

def FreeOfQuotes (t : Table) : Prop :=
  ∀ entry ∈ t.entries, Row.FreeOfQuotes entry.2

/-- A table is shown row by row, under the names of the nonterminals. -/
def ShownAs (t : Table) (shown : ValueMap (ValueMap Text)) : Prop :=
  List.Forall₂ (fun entry data => entry.1.nameOf = .ok data.1 ∧ Row.ShownAs entry.2 data.2)
    t.entries shown.entries

variable {t u : Table}

/-- The outline of a table has the names of its nonterminals, with the outlines of their rows. -/
theorem Legible.outline_eq (legible : Legible t)
    : Table.outline t = .ok (t.image Value.bareName Row.forms) := by
  rw [Table.outline, mapM_eq_map fun entry member => ?_]
  · rfl
  · rw [(legible.names _ (ValueMap.mem_keys member)).nameOf_eq,
      (legible.rows entry member).outline_eq]
    rfl

theorem Legible.shownAs (legible : Legible t) : ShownAs t (t.image Value.bareName Row.forms) := by
  rw [ShownAs, ValueMap.entries_image Value.bareName_tells legible.names,
    List.forall₂_map_right_iff, List.forall₂_same]
  intro entry member
  exact ⟨(legible.names _ (ValueMap.mem_keys member)).nameOf_eq,
    (legible.rows entry member).shownAs⟩

/-- Two tables without quotation marks in the names of terminals are outlined alike exactly if they
are the same, row by row.
-/
theorem Legible.same_forms (ht : Legible t) (hu : Legible u) (ft : FreeOfQuotes t)
    (fu : FreeOfQuotes u)
    : ValueMap.same (ValueMap.same (· == ·)) (t.image Value.bareName Row.forms)
          (u.image Value.bareName Row.forms)
        = t.same u := by
  apply ValueMap.same_image Value.bareName_tells ht.names hu.names
  intro a ha b hb
  exact (ht.rows a ha).same_forms (hu.rows b hb) (ft a ha) (fu b hb)

end Table

-----------------------------------------------------------------------------------------
-- Grammars and what is computed from them
-----------------------------------------------------------------------------------------

namespace Grammar

/-- No terminal of a grammar has a quotation mark in its name. -/
def FreeOfQuotes (g : Grammar) : Prop :=
  ∀ t ∈ g.terms, quotationMark ∉ t

def setMaps (g : Grammar) : List SetMap :=
  [g.first, g.follow g.first g.nullable]

variable {g h : Grammar}

theorem HasLookahead.legible {v : Value} (known : g.HasLookahead v) : v.Legible := by
  rcases known with ⟨t, _, rfl⟩ | rfl
  · exact .term t
  · exact .endMark

theorem isNonterm_of_keys {β : Type} {m : ValueMap β} (keys : m.keys = g.nontermValues)
    : ∀ k ∈ m.keys, k.IsNonterm := by
  intro k member
  obtain ⟨n, _, rfl⟩ := List.mem_map.mp (keys ▸ member)
  exact ⟨_, rfl⟩

/-- The first sets and the follow sets of a grammar are legible, since they have declared terminals
and marks only.
-/
theorem legible_of_mem_setMaps {m : SetMap} (computed : m ∈ g.setMaps) : m.Legible := by
  have legible {m : SetMap} (keys : m.keys = g.nontermValues)
      (values : ∀ k v, (m.setOf k).has v = true → v.Legible) : m.Legible :=
    ⟨isNonterm_of_keys keys, fun entry member v hv =>
      values entry.1 v (SetMap.setOf_of_mem member ▸ ValueSet.has_of_mem hv)⟩
  rcases List.mem_pair.mp computed with rfl | rfl
  · apply legible g.keys_first
    intro k v found
    rcases hasTerm_of_has_first found with ⟨t, _, rfl⟩ | rfl
    · exact .term t
    · exact .epsilon
  · apply legible (g.keys_follow g.first g.nullable)
    intro k v found
    exact (hasLookahead_of_has_follow found).legible

/-- The rules of a grammar are legible, since their symbols are declared. -/
theorem legible_rule {r : Rule} (member : r ∈ g.rules) : r.Legible := by
  obtain ⟨⟨n, hn, head⟩, body⟩ := g.rules_declared r member
  refine ⟨⟨n, head, g.nonterms_named n hn⟩, fun v hv => ?_⟩
  rcases Rule.eq_of_mem_rhs hv with rfl | ⟨s, hs, rfl⟩
  · exact .epsilon
  · cases s with
    | nonterm name =>
        obtain ⟨m, hm, rfl⟩ := body _ hs
        exact .nonterm (g.nonterms_named m hm)
    | term name =>
        obtain ⟨t, _, rfl⟩ := body _ hs
        exact .term t
    | endMark => exact .endMark

theorem FreeOfQuotes.rule (free : g.FreeOfQuotes) {r : Rule} (member : r ∈ g.rules)
    : r.FreeOfQuotes := by
  intro v hv t terminal
  subst terminal
  rcases Rule.eq_of_mem_rhs hv with empty | ⟨s, hs, symbol⟩
  · cases empty
  · have declared := (g.rules_declared r member).2 s hs
    cases s with
    | nonterm name => cases symbol
    | term name =>
        obtain ⟨u, hu, rfl⟩ := declared
        cases symbol
        exact free t hu
    | endMark => cases symbol

/-- A cell of the table of a grammar's own sets is that of a declared lookahead, with a rule of the
grammar.
-/
theorem cell_of_mem_ownTable {row : Value × Row} (entry : row ∈ g.ownTable.entries)
    {cell : Value × Rule} (member : cell ∈ row.2.entries)
    : g.HasLookahead cell.1 ∧ cell.2 ∈ g.rules := by
  have found : g.ownTable.cell? row.1 cell.1 = some cell.2 := by
    rw [Table.cell?, ValueMap.get?_of_mem entry]
    exact ValueMap.get?_of_mem member
  obtain ⟨rule, _, directed⟩ := rule_of_cell found
  exact ⟨hasLookahead_of_directed rule directed, rule⟩

/-- The table of a grammar is legible, since its cells hold rules of the grammar for declared
lookaheads.
-/
theorem legible_ownTable (g : Grammar) : g.ownTable.Legible := by
  refine ⟨isNonterm_of_keys (keys_of_enters (g.enters_ofGrammar _ _)), fun row entry => ⟨?_, ?_⟩⟩
  · intro la listed
    obtain ⟨cell, member, rfl⟩ := List.mem_map.mp listed
    exact (cell_of_mem_ownTable entry member).1.legible
  · intro cell member
    exact legible_rule (cell_of_mem_ownTable entry member).2

theorem FreeOfQuotes.ownTable (free : g.FreeOfQuotes) : g.ownTable.FreeOfQuotes :=
  fun _ entry _ member => free.rule (cell_of_mem_ownTable entry member).2

/-- The outline of a grammar, all of whose rules can be written. -/
def plainOutline (g : Grammar) : Outline :=
  ⟨g.start, Text.sort g.nonterms, Text.sort g.terms, g.rules.map Rule.form⟩

/-- The outline of a grammar never fails. -/
theorem outline_eq (g : Grammar) : g.outline = .ok g.plainOutline := by
  rw [outline, mapM_eq_map fun r member => eq_ok_written (legible_rule member).exists_display]
  rfl

/-- Lists of distinct texts have the same texts exactly if they are the same in ascending order. -/
theorem sort_eq_iff_contains {ss ts : List Text} (hs : ss.Nodup) (ht : ts.Nodup)
    : Text.sort ss = Text.sort ts
      ↔ ss.all ts.contains = true ∧ ts.all ss.contains = true := by
  rw [sort_eq_sort_iff, List.perm_ext_iff_of_nodup hs ht]
  simp only [List.all_eq_true, List.contains_iff_mem]
  exact ⟨fun equal => ⟨fun t => (equal t).mp, fun t => (equal t).mpr⟩,
    fun ⟨left, right⟩ t => ⟨left t, right t⟩⟩

/-- The rules of two grammars are written alike exactly if they count as one, place by place. -/
theorem map_form_eq_iff (fg : g.FreeOfQuotes) (fh : h.FreeOfQuotes)
    : g.rules.map Rule.form = h.rules.map Rule.form
      ↔ g.rules.map Rule.key = h.rules.map Rule.key := by
  rw [List.ext_getElem_iff, List.ext_getElem_iff]
  simp only [List.length_map, List.getElem_map]
  refine and_congr_right fun _ => forall₃_congr fun i hi hj => ?_
  have hr := List.getElem_mem hi
  have hs := List.getElem_mem hj
  rw [(legible_rule hr).form_eq_iff (legible_rule hs) (fg.rule hr) (fh.rule hs), Rule.same,
    decide_eq_true_eq]

/-- Two grammars are outlined alike exactly if they are the same: sorted names are equal if the sets
of names are.
-/
theorem plainOutline_eq_iff (fg : g.FreeOfQuotes) (fh : h.FreeOfQuotes)
    : g.plainOutline = h.plainOutline ↔ g.same h = true := by
  rw [same]
  simp only [plainOutline, Outline.mk.injEq, Bool.and_eq_true, decide_eq_true_eq,
    sort_eq_iff_contains g.nonterms_nodup h.nonterms_nodup,
    sort_eq_iff_contains g.terms_nodup h.terms_nodup, map_form_eq_iff fg fh]
  tauto

/-- Plain data lose nothing. Grammars without quotation marks in the names of terminals are the same
exactly if their outlines are, and so are the tables of their own sets. With any names, the outline
of such a table shows each of its rows and each of their cells; first sets and follow sets are the
same exactly if their outlines are; and no two symbols are written alike.
-/
theorem same_iff_outlines (g h : Grammar)
    : (g.FreeOfQuotes
        → h.FreeOfQuotes
        → (∃ a b, g.outline = .ok a ∧ h.outline = .ok b ∧ (a = b ↔ g.same h = true))
          ∧ ∃ s t,
              g.ownTable.outline = .ok s
              ∧ h.ownTable.outline = .ok t
              ∧ (ValueMap.same (ValueMap.same (· == ·)) s t = true
                ↔ g.ownTable.same h.ownTable = true))
      ∧ (∃ shown, g.ownTable.outline = .ok shown ∧ g.ownTable.ShownAs shown)
      ∧ (∀ m ∈ g.setMaps,
          ∀ n ∈ h.setMaps,
            ∃ a b,
              m.outline = .ok a
              ∧ n.outline = .ok b
              ∧ (ValueMap.same (· == ·) a b = true ↔ m.same n = true))
      ∧ ∀ v w : Value, v.Legible → w.Legible → v.display = w.display → v = w := by
  refine ⟨fun fg fh => ⟨?_, ?_⟩, ?_, fun m hm n hn => ?_, fun v w hv hw same => ?_⟩
  · exact ⟨_, _, g.outline_eq, h.outline_eq, plainOutline_eq_iff fg fh⟩
  · refine ⟨_, _, g.legible_ownTable.outline_eq, h.legible_ownTable.outline_eq, ?_⟩
    rw [g.legible_ownTable.same_forms h.legible_ownTable fg.ownTable fh.ownTable]
  · exact ⟨_, g.legible_ownTable.outline_eq, g.legible_ownTable.shownAs⟩
  · have left := legible_of_mem_setMaps hm
    have right := legible_of_mem_setMaps hn
    refine ⟨_, _, left.outline_eq, right.outline_eq, ?_⟩
    rw [left.same_forms right]
  · exact hv.form_inj hw (congrArg written same)

theorem same_iff_outlines_brackets
    : brackets.FreeOfQuotes
      ∧ repeatedLetter.FreeOfQuotes
      ∧ brackets.outline ≠ repeatedLetter.outline
      ∧ ∀ s t,
          brackets.ownTable.outline = .ok s
          → repeatedLetter.ownTable.outline = .ok t
          → ValueMap.same (ValueMap.same (· == ·)) s t = false := by
  have free : brackets.FreeOfQuotes := by simp [FreeOfQuotes]; decide
  have free' : repeatedLetter.FreeOfQuotes := by simp [FreeOfQuotes]; decide
  obtain ⟨apart, _⟩ := brackets.same_iff_outlines repeatedLetter
  obtain ⟨⟨a, b, left, right, outlines⟩, s, t, rows, rows', tables⟩ := apart free free'
  refine ⟨free, free', fun same => ?_, fun s' t' hs ht => ?_⟩
  · rw [left, right] at same
    have equal := outlines.mp (Except.ok.inj same)
    revert equal
    decide
  · rw [rows] at hs
    rw [rows'] at ht
    cases hs
    cases ht
    rw [Bool.eq_false_iff]
    intro same
    have equal := tables.mp same
    revert equal
    decide

end Grammar

end PredictiveParsing
