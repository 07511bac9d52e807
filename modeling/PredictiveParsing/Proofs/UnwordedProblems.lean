import PredictiveParsing.Proofs.WellFormedGrammars

/-! Grammars that are refused without a word about what is wrong with them. A problem is worded with
the written forms of values, and some values cannot be written, such as a nonterminal that a number
names. Then the fault of writing it stands for the problem.
-/

namespace PredictiveParsing.Grammar

/-- If no grammar can be made of values that can be looked up, there is a first violation, which is
reported as such as long as the values that it is about can be written. If one of them cannot, the
fault of writing a value is all that is reported.
-/
theorem refusal_of_unwritable {nonterms terms rules start : Value} {ns ts rs : List Value}
    (hn : nonterms.elements = .ok ns) (ht : terms.elements = .ok ts) (hr : rules.elements = .ok rs)
    (hashable : ∀ v ∈ start :: (ns ++ ts ++ rs), v.hashable = true)
    (refused : ∀ g, ofValues nonterms terms rules start ≠ .ok g)
    : ∃ problem,
        FirstViolation ns ts rs start problem
        ∧ ((∀ v ∈ problem.values, v.isWritable = true)
          → ofValues nonterms terms rules start = .error (.invalid problem))
        ∧ ((∃ v ∈ problem.values, v.isWritable = false)
          → ∃ fault,
              fault.isOfWriting = true ∧ ofValues nonterms terms rules start = .error fault) := by
  have bad : ¬ WellFormed ns ts rs start := fun well => by
    obtain ⟨g, made⟩ := (exists_ofValues_iff hn ht hr).mpr well
    exact refused g made
  have symbols : ∀ v ∈ ns ++ ts, v.hashable = true := fun v member =>
    hashable v (List.mem_cons_of_mem _ (List.mem_append_left rs member))
  have others : ∀ v ∈ start :: rs, v.hashable = true := fun v member =>
    hashable v (List.cons_subset_cons start (List.subset_append_right _ rs) member)
  rw [ofValues_eq hn ht hr symbols]
  obtain ⟨problem, violation, reported⟩ := exists_fault_of_ofLists others bad
  refine ⟨problem, violation, fun writable => ?_, fun ⟨v, about, unwritable⟩ => ?_⟩
  · rw [reported, Problem.fault_of_writable writable]
  · exact ⟨_, Problem.isOfWriting_fault about unwritable, reported⟩

/-- Of two nonterminals with malformed names, the one that a number names cannot be written. -/
theorem refusal_of_unwritable_number
    : let number : Value := .nonterm (.int 5)
      let digit : Value := .nonterm (.text (.ofString "5"))
      (∃ fault,
        fault.isOfWriting = true
        ∧ ofValues (.list [number]) (.list []) (.list []) number = .error fault)
      ∧ ofValues (.list [digit]) (.list []) (.list []) digit
        = .error (.invalid (.malformedNonterm digit)) := by
  intro number digit
  have only {v : Value} {problem : Problem} (violation : FirstViolation [v] [] [] v problem)
      : problem = .malformedNonterm v := by
    cases violation with
    | nonterm member => rw [List.mem_singleton.mp member]
    | term _ member => cases member
    | rule _ _ split => simp at split
    | start _ _ _ undeclared => exact absurd (List.mem_singleton_self v) undeclared
  have first (v : Value) (hashable : ∀ w ∈ [v, v], w.hashable = true)
      (refused : ∀ g, ofValues (.list [v]) (.list []) (.list []) v ≠ .ok g) :=
    @refusal_of_unwritable (.list [v]) (.list []) (.list []) v [v] [] [] rfl rfl rfl hashable
      refused
  constructor
  · obtain ⟨problem, violation, _, unwritten⟩ :=
      first number (by decide) fun g made => by cases made
    rw [only violation] at unwritten
    exact unwritten ⟨number, List.mem_singleton_self number, rfl⟩
  · obtain ⟨problem, violation, written, _⟩ :=
      first digit (by decide) fun g made => by cases made
    rw [only violation] at written
    exact written (List.forall_mem_singleton.mpr rfl)

/-- A nonterminal that a number names can be looked up, but it is not reported as malformed. -/
theorem unworded_number
    : let number : Value := .nonterm (.int 5)
      number.hashable = true
      ∧ (∀ g, ofValues (.list [number]) (.list []) (.list []) number ≠ .ok g)
      ∧ ∀ problem,
          ofValues (.list [number]) (.list []) (.list []) number ≠ .error (.invalid problem) := by
  intro number
  have ended : ofValues (.list [number]) (.list []) (.list []) number
      = .error (.nameNotText .int) := rfl
  rw [ended]
  exact ⟨rfl, nofun, nofun⟩

end PredictiveParsing.Grammar
