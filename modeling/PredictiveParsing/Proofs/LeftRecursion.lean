import Mathlib.Logic.Relation
import PredictiveParsing.Proofs.FirstDerivations

/-! Left recursion as a cycle: a nonterminal derives a word in which it stands first if and only
if it leads back to itself by rules whose bodies vanish up to the next symbol on the way.
-/

namespace PredictiveParsing

variable {rules : Rule → Prop}

def ProperlyDerives (rules : Rule → Prop) (word result : List Symbol) : Prop :=
  ∃ r before after,
    rules r
    ∧ word = before ++ r.symbol :: after
    ∧ Derives rules (before ++ r.body ++ after) result

/-- A nonterminal is left recursive if it derives, in at least one step, a word in which it
stands first.
-/
def LeftRecursive (rules : Rule → Prop) (name : Value) : Prop :=
  ∃ rest, ProperlyDerives rules [.nonterm name] (.nonterm name :: rest)

/-- A symbol exposes another one by a rule in whose body everything before the latter vanishes. -/
inductive Exposes (rules : Rule → Prop) : Symbol → Symbol → Prop where
  | rule {r : Rule} {before after : List Symbol} {s : Symbol} (hr : rules r)
    (split : r.body = before ++ s :: after) (erased : ∀ x ∈ before, Vanishes rules x)
    : Exposes rules r.symbol s

/-- What a symbol exposes comes first in something that it derives: the symbols before it are
erased.
-/
theorem Exposes.properlyDerives {x y : Symbol} (exposes : Exposes rules x y)
    : ∃ rest, ProperlyDerives rules [x] (y :: rest) := by
  cases exposes with
  | @rule r before after _ hr split erased =>
      refine ⟨after, r, [], [], hr, rfl, ?_⟩
      rw [split]
      simpa using Derives.behind_vanishing erased (.refl [y]) after

theorem ProperlyDerives.derives {word result : List Symbol}
    (derives : ProperlyDerives rules word result)
    : Derives rules word result := by
  obtain ⟨r, before, after, hr, rfl, later⟩ := derives
  exact .step hr later

/-- What stands first after some steps may be replaced by what it derives. -/
theorem ProperlyDerives.trans_head {x y : Symbol} {rest word : List Symbol}
    (first : ProperlyDerives rules [x] (y :: rest)) (later : Derives rules [y] word)
    : ProperlyDerives rules [x] (word ++ rest) := by
  obtain ⟨r, before, after, hr, whole, derives⟩ := first
  exact ⟨r, before, after, hr, whole, derives.trans (by simpa using later.inside [] rest)⟩

/-- Symbols that expose one another in turn derive words in which the next one stands first, by
induction on them.
-/
theorem exists_properlyDerives_of_exposes {x y : Symbol}
    (path : Relation.TransGen (Exposes rules) x y)
    : ∃ rest, ProperlyDerives rules [x] (y :: rest) := by
  induction path with
  | single exposes => exact exposes.properlyDerives
  | tail _ exposes ih =>
      obtain ⟨rest, first⟩ := ih
      obtain ⟨more, later⟩ := exposes.properlyDerives
      exact ⟨more ++ rest, first.trans_head later.derives⟩

/-- A word leads to a symbol if one of its symbols does by exposing others in turn, and all symbols
before that one vanish.
-/
def LeadsTo (rules : Rule → Prop) (s : Symbol) : List Symbol → Prop
  | [] => False
  | x :: word =>
      Relation.ReflTransGen (Exposes rules) x s ∨ Vanishes rules x ∧ LeadsTo rules s word

/-- Of two words in a row, the first leads to a symbol, or it vanishes and the second does. By
induction on the first.
-/
theorem leadsTo_append {s : Symbol} {word more : List Symbol}
    : LeadsTo rules s (word ++ more)
      ↔ LeadsTo rules s word ∨ (∀ x ∈ word, Vanishes rules x) ∧ LeadsTo rules s more := by
  induction word with
  | nil => simp [LeadsTo]
  | cons x word ih =>
      simp only [List.cons_append, LeadsTo, ih, List.forall_mem_cons]
      tauto

/-- A word that leads to a symbol does so by one of its symbols, behind symbols that vanish. By
induction on the word.
-/
theorem LeadsTo.split {s : Symbol} {word : List Symbol} (leads : LeadsTo rules s word)
    : ∃ before x after,
        word = before ++ x :: after
        ∧ (∀ z ∈ before, Vanishes rules z)
        ∧ Relation.ReflTransGen (Exposes rules) x s := by
  induction word with
  | nil => exact False.elim leads
  | cons x word ih =>
      rcases leads with path | ⟨erased, later⟩
      · exact ⟨[], x, word, rfl, by simp, path⟩
      · obtain ⟨before, y, after, rfl, all, path⟩ := ih later
        exact ⟨x :: before, y, after, rfl, List.forall_mem_cons.mpr ⟨erased, all⟩, path⟩

/-- The nonterminal of a rule goes on to whatever the body leads to. -/
theorem LeadsTo.transGen_rule {r : Rule} (hr : rules r) {s : Symbol}
    (leads : LeadsTo rules s r.body)
    : Relation.TransGen (Exposes rules) r.symbol s := by
  obtain ⟨before, x, after, split, erased, path⟩ := leads.split
  exact .head' (.rule hr split erased) path

/-- A word leads to what stands first in a word that it derives. By induction on the derivation:
the nonterminal of a rule leads wherever the body does, and vanishes if the body does.
-/
theorem leadsTo_of_derives {word rest : List Symbol} {s : Symbol}
    (derives : Derives rules word (s :: rest))
    : LeadsTo rules s word := by
  generalize last : s :: rest = result at derives
  induction derives with
  | refl =>
      rw [← last]
      exact Or.inl .refl
  | @step r front back _ hr _ ih =>
      have opened := ih last
      rw [List.append_assoc, leadsTo_append, leadsTo_append] at opened
      rw [leadsTo_append]
      rcases opened with early | ⟨erased, inner | ⟨gone, later⟩⟩
      · exact Or.inl early
      · exact Or.inr ⟨erased, Or.inl (inner.transGen_rule hr).to_reflTransGen⟩
      · exact Or.inr ⟨erased, Or.inr ⟨.rule hr gone, later⟩⟩

/-- A nonterminal is left recursive if and only if it leads back to itself by exposing other
symbols in turn.
-/
theorem leftRecursive_iff {name : Value}
    : LeftRecursive rules name
      ↔ Relation.TransGen (Exposes rules) (.nonterm name) (.nonterm name) := by
  constructor
  · rintro ⟨rest, r, before, after, hr, whole, derives⟩
    cases before with
    | nil =>
        obtain ⟨here, rfl⟩ := List.cons_eq_cons.mp whole
        have body : Derives rules r.body (.nonterm name :: rest) := by simpa using derives
        exact here ▸ (leadsTo_of_derives body).transGen_rule hr
    | cons x before => simp at whole
  · exact exists_properlyDerives_of_exposes

end PredictiveParsing
