import PredictiveParsing.Derivation
import PredictiveParsing.Proofs.VanishingSymbols

/-! The computed set of vanishing nonterminals has exactly those that derive the empty word: a
tree of rules for a symbol that vanishes is a derivation, and every member has such a tree.
-/

namespace PredictiveParsing

section Trees

variable {rules : Rule → Prop}

/-- Symbols that derive the empty word one by one derive it together, by induction on them. -/
theorem Derives.nil_of_forall {word : List Symbol} (each : ∀ s ∈ word, Derives rules [s] [])
    : Derives rules word [] := by
  induction word with
  | nil => exact .refl []
  | cons s word ih =>
      obtain ⟨first, later⟩ := List.forall_mem_cons.mp each
      exact first.append (ih later)

/-- A symbol that vanishes derives the empty word, by induction on how it vanishes. -/
theorem Vanishes.derives {s : Symbol} (vanishes : Vanishes rules s) : Derives rules [s] [] := by
  induction vanishes with
  | rule hr _ ih => exact (Derives.of_rule hr).trans (.nil_of_forall ih)

/-- A word derives the empty one if all of its symbols vanish. Only if, by induction on the
derivation: the symbols of a body vanish by the later steps, and so does the rule's nonterminal.
-/
theorem derives_nil_iff {word : List Symbol}
    : Derives rules word [] ↔ ∀ s ∈ word, Vanishes rules s := by
  constructor
  · intro derives
    generalize last : ([] : List Symbol) = empty at derives
    induction derives with
    | refl => simp [← last]
    | @step r before after _ hr _ ih =>
        have vanish := ih last
        intro s hs
        rcases List.mem_append.mp hs with front | rest
        · exact vanish s (by simp [front])
        rcases List.mem_cons.mp rest with rfl | behind
        · exact .rule hr fun x hx => vanish x (by simp [hx])
        · exact vanish s (by simp [behind])
  · exact fun vanish => .nil_of_forall fun s hs => (vanish s hs).derives

end Trees

namespace Grammar

def AllVanish (g : Grammar) (null : ValueSet) : Prop :=
  ∀ s : Symbol, null.has s.toValue = true → g.Vanishes s

theorem allVanish_nullableSeed (g : Grammar) : g.AllVanish g.nullableSeed := by
  intro s found
  rw [nullableSeed, ValueSet.has_ofList, List.any_eq_true] at found
  obtain ⟨_, listed, same⟩ := found
  obtain ⟨r, kept, rfl⟩ := List.mem_map.mp listed
  obtain ⟨member, empty⟩ := List.mem_filter.mp kept
  have nothing : r.body = [] := by simpa [Rule.isEmpty] using empty
  rw [decide_eq_true_eq] at same
  have here : s = r.symbol := Symbol.toValue_injective (eq_lhs_of_key member same.symm)
  exact here ▸ .rule member (by simp [nothing])

/-- A pass adds the nonterminal of a rule when all symbols of the body are members. The mark of
the empty word that an empty rule shows is no symbol, but the rule vanishes anyhow.
-/
theorem AllVanish.pass {g : Grammar} {null : ValueSet} (vanish : g.AllVanish null)
    : g.AllVanish (g.nullablePass null) := by
  apply foldl_invariant g.AllVanish _ vanish
  intro r member null sofar
  split
  · rename_i all
    intro s found
    rw [ValueSet.has_insert, Bool.or_eq_true, decide_eq_true_eq] at found
    rcases found with same | old
    · have here : s = r.symbol := Symbol.toValue_injective (eq_lhs_of_key member same.symm)
      rw [here]
      refine .rule member fun x hx => sofar x ?_
      exact (Rule.all_rhs (List.ne_nil_of_mem hx)).mp all x hx
    · exact sofar s old
  · exact sofar

/-- All computed nonterminals vanish, since each pass keeps it that all members do. -/
theorem allVanish_nullable (g : Grammar) : g.AllVanish g.nullable := by
  obtain ⟨null, vanish, reached, _⟩ := g.settleNullable_settled g.nullableSeed g.AllVanish
    (fun _ => AllVanish.pass) g.allVanish_nullableSeed
  rw [nullable, reached]
  exact vanish.pass

/-- The computed set has exactly the symbols that vanish. -/
theorem has_nullable_iff_vanishes {g : Grammar} {s : Symbol}
    : g.nullable.has s.toValue = true ↔ g.Vanishes s :=
  ⟨g.allVanish_nullable s, Vanishes.has_nullable⟩

/-- A word of symbols derives the empty word if all of them are in the computed set. -/
theorem derives_nil_iff_nullable {g : Grammar} {word : List Symbol}
    : g.Derives word [] ↔ ∀ s ∈ word, g.nullable.has s.toValue = true := by
  simp only [has_nullable_iff_vanishes]
  exact derives_nil_iff

/-- A nonterminal is in the computed set if and only if it derives the empty word. -/
theorem has_nullable_iff_derives (g : Grammar) (name : Value)
    : g.nullable.has (.nonterm name) = true ↔ g.Derives [.nonterm name] [] := by
  rw [derives_nil_iff_nullable, List.forall_mem_singleton]
  rfl

end Grammar

end PredictiveParsing
