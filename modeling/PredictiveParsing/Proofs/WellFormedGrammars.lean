import Mathlib.Data.Fintype.Basic
import Mathlib.Data.Set.List
import PredictiveParsing.Grammar.Construction
import PredictiveParsing.Proofs.CheckedLookUps
import PredictiveParsing.Proofs.SymbolNames

/-! Which values rules and grammars can be made of: the checks accept exactly the well-formed ones,
and report the first violation otherwise, in the order nonterminals, terminals, rules, start
symbol. What is made of accepted values holds them and nothing else.
-/

namespace PredictiveParsing

-----------------------------------------------------------------------------------------
-- Rules
-----------------------------------------------------------------------------------------

namespace Rule

def symbolKinds : List Kind :=
  [.nonterm, .term, .epsilon, .endMark]

/-- A rule can be made of a nonterminal and symbols among which the mark of the empty word stands
only by itself.
-/
structure WellFormed (lhs : Value) (items : List Value) : Prop where
  head : lhs.kind = .nonterm
  symbols : ∀ v ∈ items, v.kind ∈ symbolKinds
  epsilon : items = [] ∨ items = [.epsilon] ∨ .epsilon ∉ items

theorem isSymbol_iff {v : Value} : v.isSymbol = true ↔ v.kind ∈ symbolKinds := by
  cases v <;> simp [Value.isSymbol, Value.kind, symbolKinds]

/-- A right-hand side with a length and elements is taken as the list of the elements. -/
theorem ofValues_eq {lhs rhs : Value} {n : Nat} {items : List Value} (sized : rhs.length = .ok n)
    (elements : rhs.elements = .ok items)
    : ofValues lhs rhs = ofParts lhs items := by
  have count : n = items.length := by
    cases rhs <;> cases elements <;> cases sized <;> simp
  rw [ofValues, sized, elements]
  cases items with
  | nil => simp [count, bind, Except.bind]
  | cons item items => simp [count, bind, Except.bind]

theorem find?_eq_none_iff {items : List Value}
    : (items.find? fun item => !item.isSymbol) = none ↔ ∀ v ∈ items, v.kind ∈ symbolKinds := by
  simp [List.find?_eq_none, ← isSymbol_iff]

/-- The mark of the empty word is not one of several items. -/
theorem mixed_eq_false_iff {items : List Value}
    : (decide (1 < items.length) && items.contains .epsilon) = false
      ↔ items = [] ∨ items = [.epsilon] ∨ .epsilon ∉ items := by
  match items with
  | [] => simp
  | [item] => simp [eq_comm, em]
  | first :: second :: items => simp

/-- A rule is made of well-formed parts only: each of the three checks has passed. -/
theorem wellFormed_of_ofParts {lhs : Value} {items : List Value} {r : Rule}
    (made : ofParts lhs items = .ok r)
    : WellFormed lhs items := by
  unfold ofParts at made
  split at made
  · split at made
    · exact absurd made Problem.refuse_ne_ok
    · rename_i symbols
      split at made
      · exact absurd made Problem.refuse_ne_ok
      · rename_i alone
        exact ⟨rfl, find?_eq_none_iff.mp (Option.eq_none_iff_forall_ne_some.mpr symbols),
          mixed_eq_false_iff.mp (Bool.eq_false_iff.mpr alone)⟩
  · exact absurd made Problem.refuse_ne_ok

/-- The values of the symbols other than the mark of the empty word are those of a body. -/
theorem exists_body {items : List Value} (symbols : ∀ v ∈ items, v.kind ∈ symbolKinds)
    (proper : .epsilon ∉ items)
    : ∃ body : List Symbol, items = body.map Symbol.toValue := by
  have each : ∀ v ∈ items, v ∈ Set.range Symbol.toValue := by
    intro v member
    have symbol := symbols v member
    cases v with
    | nonterm name => exact ⟨.nonterm name, rfl⟩
    | term name => exact ⟨.term name, rfl⟩
    | endMark => exact ⟨.endMark, rfl⟩
    | epsilon => exact absurd member proper
    | _ => simp [symbolKinds, Value.kind] at symbol
  obtain ⟨body, same⟩ : items ∈ Set.range (List.map Symbol.toValue) := by
    rw [Set.range_list_map]
    exact each
  exact ⟨body, same.symm⟩

/-- Of well-formed parts a rule is made that keeps them, and shows the mark of the empty word in
place of none.
-/
theorem ofParts_of_wellFormed {lhs : Value} {items : List Value} (well : WellFormed lhs items)
    : ∃ r,
        ofParts lhs items = .ok r
        ∧ r.lhs = lhs
        ∧ r.rhs = if items = [] then [.epsilon] else items := by
  obtain ⟨isNonterm, symbols, epsilon⟩ := well
  obtain ⟨head, rfl⟩ : ∃ head, lhs = .nonterm head := by
    cases lhs <;> first | exact ⟨_, rfl⟩ | cases isNonterm
  refine ⟨⟨head, items.filterMap Symbol.ofValue?⟩, ?_, rfl, ?_⟩
  · simp only [ofParts, find?_eq_none_iff.mpr symbols, mixed_eq_false_iff.mpr epsilon]
    rfl
  · rcases epsilon with rfl | rfl | proper
    · rfl
    · rfl
    · obtain ⟨body, rfl⟩ := exists_body symbols proper
      simp [rhs, word, List.filterMap_map]

/-- A rule is made of well-formed parts, and of no others. It keeps its nonterminal and its symbols,
with the mark of the empty word in place of none.
-/
theorem ofValues_spec {lhs rhs : Value} {n : Nat} {items : List Value} (sized : rhs.length = .ok n)
    (elements : rhs.elements = .ok items)
    : ((∃ r, ofValues lhs rhs = .ok r) ↔ WellFormed lhs items)
      ∧ ∀ r,
          ofValues lhs rhs = .ok r
          → r.lhs = lhs
            ∧ r.rhs = (if items = [] then [.epsilon] else items)
            ∧ (r.rhs = [.epsilon] ∨ r.rhs ≠ [] ∧ .epsilon ∉ r.rhs) := by
  rw [ofValues_eq sized elements]
  constructor
  · constructor
    · rintro ⟨r, made⟩
      exact wellFormed_of_ofParts made
    · intro well
      obtain ⟨r, made, _⟩ := ofParts_of_wellFormed well
      exact ⟨r, made⟩
  · intro r made
    have well := wellFormed_of_ofParts made
    obtain ⟨s, made', head, body⟩ := ofParts_of_wellFormed well
    cases made.symm.trans made'
    refine ⟨head, body, ?_⟩
    rw [body]
    rcases well.epsilon with rfl | rfl | proper
    · exact Or.inl rfl
    · exact Or.inl rfl
    · split
      · exact Or.inl rfl
      · rename_i nonempty
        exact Or.inr ⟨nonempty, proper⟩

/-- Values that are read as symbols are the values of these symbols, by induction. -/
theorem eq_of_mapM_ofValue? {items : List Value} {body : List Symbol}
    (read : items.mapM Symbol.ofValue? = some body)
    : items = body.map Symbol.toValue := by
  induction items generalizing body with
  | nil => cases read; rfl
  | cons item items ih =>
      simp only [List.mapM_cons, Option.bind_eq_bind, Option.bind_eq_some_iff] at read
      obtain ⟨s, first, rest, later, made⟩ := read
      cases made
      have item : item = s.toValue := by
        cases item <;> cases first <;> rfl
      rw [List.map_cons, item, ih later]

/-- A value that is read as a rule is the value of that rule. -/
theorem eq_toValue_of_ofValue? {v : Value} {r : Rule} (read : ofValue? v = some r)
    : v = r.toValue := by
  unfold ofValue? at read
  split at read
  · obtain ⟨body, items, rfl⟩ := Option.map_eq_some_iff.mp read
    rw [eq_of_mapM_ofValue? items]
    rfl
  · cases read

/-- In a rule with texts as names, the nonterminal and all symbols of the body have them. -/
theorem isTextNamed_parts {r : Rule} (named : r.toValue.isTextNamed = true)
    : r.lhs.isTextNamed = true ∧ ∀ x ∈ r.rhs, x.isTextNamed = true := by
  obtain ⟨head, body⟩ := r
  cases head with
  | text n =>
      refine ⟨rfl, fun x occurs => ?_⟩
      unfold rhs at occurs
      split at occurs
      · rw [List.mem_singleton.mp occurs]
        rfl
      · exact Value.allTextNamed_iff.mp named x occurs
  | _ => cases named

end Rule

-----------------------------------------------------------------------------------------
-- What a grammar can be made of
-----------------------------------------------------------------------------------------

namespace Value

/-- A nonterminal whose whole name is a letter or an underscore and then letters, digits,
underscores and apostrophes, all of ASCII.
-/
def WellNamedNonterm (v : Value) : Prop :=
  ∃ c cs,
    v = .nonterm (.text ((c :: cs).map CodePoint.ofChar))
    ∧ (c.isAlpha = true ∨ c = '_')
    ∧ ∀ d ∈ cs, d.isAlphanum = true ∨ d = '_' ∨ d = '\x27'

/-- A terminal whose name is not empty, and free of surrogates. -/
def WellNamedTerm (v : Value) : Prop :=
  ∃ t : Text, v = .term (.text t) ∧ t ≠ [] ∧ ∀ p ∈ t, p.val < 0xD800 ∨ 0xDFFF < p.val

variable {v w : Value}

/-- A nonterminal is well-named exactly if its name passes the check. -/
theorem wellNamedNonterm_iff
    : v.WellNamedNonterm ↔ ∃ n : Text, v = .nonterm (.text n) ∧ n.isNontermName = true := by
  simp only [Text.isNontermName_iff]
  constructor
  · rintro ⟨c, cs, rfl, shape⟩
    exact ⟨_, rfl, c, cs, rfl, shape⟩
  · rintro ⟨_, rfl, c, cs, rfl, shape⟩
    exact ⟨c, cs, rfl, shape⟩

theorem wellNamedTerm_iff
    : v.WellNamedTerm ↔ ∃ t : Text, v = .term (.text t) ∧ t.isTermName = true := by
  simp only [Text.isTermName_iff]
  rfl

theorem WellNamedNonterm.hashable (well : v.WellNamedNonterm) : v.hashable = true := by
  obtain ⟨c, cs, rfl, _⟩ := well
  rfl

theorem WellNamedTerm.hashable (well : v.WellNamedTerm) : v.hashable = true := by
  obtain ⟨t, rfl, _⟩ := well
  rfl

/-- Nothing else counts as a nonterminal with a text as its name. -/
theorem WellNamedNonterm.eq_of_key (well : v.WellNamedNonterm) (same : w.key = v.key) : w = v := by
  obtain ⟨c, cs, rfl, _⟩ := well
  exact key_eq_nonterm_text.mp same

theorem WellNamedTerm.eq_of_key (well : v.WellNamedTerm) (same : w.key = v.key) : w = v := by
  obtain ⟨t, rfl, _⟩ := well
  exact key_eq_term_text.mp same

end Value

namespace Grammar

/-- A symbol of a rule's body is among the declared ones, or the mark of the empty word. -/
def Knows (ns ts : List Value) (x : Value) : Prop :=
  x ∈ ns ∨ x ∈ ts ∨ x = .epsilon

def DeclaredRule (ns ts : List Value) (v : Value) : Prop :=
  ∃ r : Rule, v = r.toValue ∧ r.lhs ∈ ns ∧ ∀ x ∈ r.rhs, Knows ns ts x

/-- A grammar can be made of well-named nonterminals and terminals, rules over these, and one of the
nonterminals.
-/
structure WellFormed (ns ts rs : List Value) (start : Value) : Prop where
  nonterms : ∀ v ∈ ns, v.WellNamedNonterm
  terms : ∀ v ∈ ts, v.WellNamedTerm
  rules : ∀ v ∈ rs, DeclaredRule ns ts v
  start : start ∈ ns

/-- What is wrong with a value that is to be a declared rule: it is no rule, its nonterminal is not
declared, or a symbol of its body is not, the first such one.
-/
inductive RuleViolation (ns ts : List Value) : Value → Problem → Prop where
  | notRule {v : Value} (other : ∀ r : Rule, v ≠ r.toValue) : RuleViolation ns ts v (.notRule v)
  | head {r : Rule} (undeclared : r.lhs ∉ ns)
    : RuleViolation ns ts r.toValue (.undeclaredHead r.lhs)
  | symbol {r : Rule} {before after : List Value} {x : Value} (head : r.lhs ∈ ns)
    (split : r.rhs = before ++ x :: after) (declared : ∀ y ∈ before, Knows ns ts y)
    (undeclared : ¬ Knows ns ts x)
    : RuleViolation ns ts r.toValue (.undeclaredSymbol x r.toValue)

/-- The first violation, in the order nonterminals, terminals, rules as they are listed, start
symbol. Nonterminals and terminals are sets, so any of theirs can be the first.
-/
inductive FirstViolation (ns ts rs : List Value) (start : Value) : Problem → Prop where
  | nonterm {v : Value} (member : v ∈ ns) (malformed : ¬ v.WellNamedNonterm)
    : FirstViolation ns ts rs start (.malformedNonterm v)
  | term {v : Value} (nonterms : ∀ n ∈ ns, n.WellNamedNonterm) (member : v ∈ ts)
    (malformed : ¬ v.WellNamedTerm)
    : FirstViolation ns ts rs start (.malformedTerm v)
  | rule {before after : List Value} {v : Value} {problem : Problem}
    (nonterms : ∀ n ∈ ns, n.WellNamedNonterm) (terms : ∀ t ∈ ts, t.WellNamedTerm)
    (split : rs = before ++ v :: after) (declared : ∀ u ∈ before, DeclaredRule ns ts u)
    (violation : RuleViolation ns ts v problem)
    : FirstViolation ns ts rs start problem
  | start (nonterms : ∀ n ∈ ns, n.WellNamedNonterm) (terms : ∀ t ∈ ts, t.WellNamedTerm)
    (rules : ∀ v ∈ rs, DeclaredRule ns ts v) (undeclared : start ∉ ns)
    : FirstViolation ns ts rs start (.undeclaredStart start)

-----------------------------------------------------------------------------------------
-- The checks one by one
-----------------------------------------------------------------------------------------

section Checks

variable {v : Value}

/-- A value that passes as a nonterminal is the one with the name that comes out. -/
theorem eq_of_checkNonterm {n : { n : Text // n.isNontermName = true }}
    (passed : checkNonterm v = .ok n)
    : .nonterm (.text n.val) = v := by
  unfold checkNonterm at passed
  split at passed
  · split at passed
    · cases passed
      rfl
    · exact absurd passed Problem.refuse_ne_ok
  · exact absurd passed Problem.refuse_ne_ok

theorem exists_checkNonterm (well : v.WellNamedNonterm) : ∃ n, checkNonterm v = .ok n := by
  obtain ⟨n, rfl, named⟩ := Value.wellNamedNonterm_iff.mp well
  exact ⟨⟨n, named⟩, dif_pos named⟩

/-- A value that is no well-named nonterminal is refused, whatever its kind. -/
theorem checkNonterm_eq_refuse (malformed : ¬ v.WellNamedNonterm)
    : checkNonterm v = (Problem.malformedNonterm v).refuse := by
  unfold checkNonterm
  split
  · rename_i n
    exact dif_neg fun named => malformed (Value.wellNamedNonterm_iff.mpr ⟨n, rfl, named⟩)
  · rfl

theorem eq_of_checkTerm {t : { t : Text // t.isTermName = true }} (passed : checkTerm v = .ok t)
    : .term (.text t.val) = v := by
  unfold checkTerm at passed
  split at passed
  · split at passed
    · cases passed
      rfl
    · exact absurd passed Problem.refuse_ne_ok
  · exact absurd passed Problem.refuse_ne_ok

theorem exists_checkTerm (well : v.WellNamedTerm) : ∃ t, checkTerm v = .ok t := by
  obtain ⟨t, rfl, named⟩ := Value.wellNamedTerm_iff.mp well
  exact ⟨⟨t, named⟩, dif_pos named⟩

theorem checkTerm_eq_refuse (malformed : ¬ v.WellNamedTerm)
    : checkTerm v = (Problem.malformedTerm v).refuse := by
  unfold checkTerm
  split
  · rename_i t
    exact dif_neg fun named => malformed (Value.wellNamedTerm_iff.mpr ⟨t, rfl, named⟩)
  · rfl

end Checks

/-- The names of the declared nonterminals and of the declared terminals. -/
structure Names (ns ts : List Value) (nonterms terms : List Text) : Prop where
  nonterms : ∀ {v}, v ∈ ns ↔ ∃ n ∈ nonterms, v = .nonterm (.text n)
  terms : ∀ {v}, v ∈ ts ↔ ∃ t ∈ terms, v = .term (.text t)

section Names

variable {ns ts : List Value} {nonterms terms : List Text}

theorem Names.head_iff (names : Names ns ts nonterms terms) {r : Rule}
    : r.lhs ∈ ns ↔ ∃ n ∈ nonterms, r.head = .text n := by
  simp [names.nonterms, Rule.lhs]

/-- The value of a symbol is known exactly if the symbol is declared by the names. -/
theorem Names.knows_iff (names : Names ns ts nonterms terms) {x : Symbol}
    : Knows ns ts x.toValue ↔ x.Declared nonterms terms := by
  cases x <;> simp [Knows, names.nonterms, names.terms, Symbol.toValue, Symbol.Declared]

/-- A rule with declared symbols is one whose right-hand side has no others, as it is written. -/
theorem Names.declared_iff (names : Names ns ts nonterms terms) {r : Rule}
    : r.Declared nonterms terms ↔ r.lhs ∈ ns ∧ ∀ x ∈ r.rhs, Knows ns ts x := by
  rw [Rule.Declared, ← names.head_iff]
  refine and_congr_right fun _ => ?_
  cases empty : r.body with
  | nil => simp [Rule.rhs, empty, Knows]
  | cons s body => simp [Rule.rhs, Rule.word, empty, ← names.knows_iff]

/-- A body with declared symbols passes, by induction. -/
theorem exists_checkBody (r : Rule) {body : List Symbol}
    (declared : ∀ s ∈ body, s.Declared nonterms terms)
    : ∃ all, checkBody nonterms terms r body = .ok all := by
  induction body with
  | nil => exact ⟨_, rfl⟩
  | cons s body ih =>
      obtain ⟨first, later⟩ := List.forall_mem_cons.mp declared
      obtain ⟨all, passed⟩ := ih later
      exact ⟨_, by
        rw [checkBody, Value.checkHashable_eq first.hashable, dif_pos first, passed]; rfl⟩

/-- The first symbol that is not declared is reported, by induction on those before it. -/
theorem checkBody_eq_refuse (r : Rule) {before after : List Symbol} {s : Symbol}
    (declared : ∀ x ∈ before, x.Declared nonterms terms) (undeclared : ¬ s.Declared nonterms terms)
    (hashable : s.toValue.hashable = true)
    : checkBody nonterms terms r (before ++ s :: after)
      = (Problem.undeclaredSymbol s.toValue r.toValue).refuse := by
  induction before with
  | nil =>
      rw [List.nil_append, checkBody, Value.checkHashable_eq hashable, dif_neg undeclared]
      rfl
  | cons x before ih =>
      obtain ⟨first, later⟩ := List.forall_mem_cons.mp declared
      rw [List.cons_append, checkBody, Value.checkHashable_eq first.hashable, dif_pos first,
        ih later]
      exact Problem.refuse_bind

/-- A value that passes as a rule is the value of the rule that comes out. -/
theorem eq_of_checkRule {v : Value} {r : { r : Rule // r.Declared nonterms terms }}
    (passed : checkRule nonterms terms v = .ok r)
    : r.val.toValue = v := by
  unfold checkRule at passed
  split at passed
  · exact absurd passed Problem.refuse_ne_ok
  · rename_i read
    obtain ⟨_, _, passed⟩ := Fault.bind_eq_ok_iff.mp passed
    split at passed
    · obtain ⟨_, _, passed⟩ := Fault.bind_eq_ok_iff.mp passed
      cases passed
      exact (Rule.eq_toValue_of_ofValue? read).symm
    · exact absurd passed Problem.refuse_ne_ok

/-- A rule with declared symbols passes, since the names are those of the declared symbols. -/
theorem exists_checkRule (names : Names ns ts nonterms terms) {v : Value}
    (declared : DeclaredRule ns ts v)
    : ∃ r, checkRule nonterms terms v = .ok r := by
  obtain ⟨r, rfl, parts⟩ := declared
  have known : r.Declared nonterms terms := names.declared_iff.mpr parts
  obtain ⟨all, passed⟩ := exists_checkBody r known.2
  have hashable : r.lhs.hashable = true := by
    obtain ⟨n, _, head⟩ := known.1
    rw [Rule.lhs, head]
    rfl
  refine ⟨⟨r, known⟩, ?_⟩
  rw [checkRule, Rule.ofValue?_toValue]
  simp only [Value.checkHashable_eq hashable, dif_pos known.1, passed]
  rfl

/-- A value that is no declared rule is refused for what is wrong with it. -/
theorem exists_refusal_of_checkRule (names : Names ns ts nonterms terms) {v : Value}
    (hashable : v.hashable = true) (bad : ¬ DeclaredRule ns ts v)
    : ∃ problem,
        RuleViolation ns ts v problem ∧ checkRule nonterms terms v = problem.refuse := by
  unfold checkRule
  split
  · rename_i unread
    refine ⟨_, .notRule fun r same => ?_, rfl⟩
    rw [same, Rule.ofValue?_toValue] at unread
    cases unread
  · rename_i r read
    obtain rfl := Rule.eq_toValue_of_ofValue? read
    obtain ⟨head, body⟩ := Bool.and_eq_true_iff.mp hashable
    have lhs : r.lhs.hashable = true := head
    rw [Value.checkHashable_eq lhs]
    by_cases known : ∃ n ∈ nonterms, r.head = .text n
    · have among : r.lhs ∈ ns := names.head_iff.mpr known
      have some : ¬ ∀ s ∈ r.body, s.Declared nonterms terms := fun all =>
        bad ⟨r, rfl, names.declared_iff.mp ⟨known, all⟩⟩
      obtain ⟨before, s, after, split, declared, undeclared⟩ := exists_first_not some
      have written
          : r.rhs = before.map Symbol.toValue ++ s.toValue :: after.map Symbol.toValue := by
        simp [Rule.rhs, Rule.word, split]
      have shown : s.toValue.hashable = true :=
        Value.allHashable_iff.mp body s.toValue (List.mem_map_of_mem (by simp [split]))
      refine ⟨_, .symbol among written ?_ (names.knows_iff.not.mpr undeclared), ?_⟩
      · exact List.forall_mem_map.mpr fun x member => names.knows_iff.mpr (declared x member)
      · have refused : checkBody nonterms terms r r.body
            = (Problem.undeclaredSymbol s.toValue r.toValue).refuse :=
          split ▸ checkBody_eq_refuse r declared undeclared shown
        rw [dif_pos known, refused]
        exact Problem.refuse_bind
    · exact ⟨_, .head (names.head_iff.not.mpr known), dif_neg known⟩

/-- A value that passes as the start symbol is the one with the name that comes out. -/
theorem eq_of_checkStart {v : Value} {n : { n : Text // n ∈ nonterms }}
    (passed : checkStart nonterms v = .ok n)
    : v = .nonterm (.text n.val) := by
  unfold checkStart at passed
  split at passed
  · split at passed
    · cases passed
      rfl
    · exact absurd passed Problem.refuse_ne_ok
  · obtain ⟨_, _, passed⟩ := Fault.bind_eq_ok_iff.mp passed
    exact absurd passed Problem.refuse_ne_ok

theorem exists_checkStart (names : Names ns ts nonterms terms) {v : Value} (declared : v ∈ ns)
    : ∃ n, checkStart nonterms v = .ok n := by
  obtain ⟨n, member, rfl⟩ := names.nonterms.mp declared
  exact ⟨⟨n, member⟩, dif_pos member⟩

/-- An undeclared start symbol is refused, if it can be looked up. -/
theorem checkStart_eq_refuse (names : Names ns ts nonterms terms) {v : Value}
    (hashable : v.hashable = true) (undeclared : v ∉ ns)
    : checkStart nonterms v = (Problem.undeclaredStart v).refuse := by
  unfold checkStart
  split
  · exact dif_neg fun member => undeclared (names.nonterms.mpr ⟨_, member, rfl⟩)
  · rw [Value.checkHashable_eq hashable]
    rfl

end Names

-----------------------------------------------------------------------------------------
-- The checks one after another
-----------------------------------------------------------------------------------------

/-- The elements of the set of a list satisfy a condition if the values of the list do, and the
other way round if nothing else counts as a value that satisfies it.
-/
theorem forall_ofList_iff {good : Value → Prop} (rigid : ∀ v w, good v → w.key = v.key → w = v)
    {values : List Value}
    : (∀ v ∈ (ValueSet.ofList values).items, good v) ↔ ∀ v ∈ values, good v := by
  constructor
  · intro all v member
    obtain ⟨w, there, same⟩ := ValueSet.has_iff.mp (ValueSet.has_ofList_of_mem member)
    exact rigid w v (all w there) same.symm ▸ all w there
  · exact fun all v member => all v (ValueSet.items_ofList_subset values member)

/-- The set of a list has just the values of the list, if nothing else counts as one of them. -/
theorem mem_ofList_iff {good : Value → Prop} (rigid : ∀ v w, good v → w.key = v.key → w = v)
    {values : List Value} (all : ∀ v ∈ values, good v) {v : Value}
    : v ∈ (ValueSet.ofList values).items ↔ v ∈ values := by
  refine ⟨fun member => ValueSet.items_ofList_subset values member, fun member => ?_⟩
  obtain ⟨w, there, same⟩ := ValueSet.has_iff.mp (ValueSet.has_ofList_of_mem member)
  exact rigid v w (all v member) same ▸ there

section Lists

variable {ns ts rs : List Value} {start : Value}

theorem forall_nonterms_iff
    : (∀ v ∈ (ValueSet.ofList ns).items, v.WellNamedNonterm) ↔ ∀ v ∈ ns, v.WellNamedNonterm :=
  forall_ofList_iff fun _ _ well same => well.eq_of_key same

theorem forall_terms_iff
    : (∀ v ∈ (ValueSet.ofList ts).items, v.WellNamedTerm) ↔ ∀ v ∈ ts, v.WellNamedTerm :=
  forall_ofList_iff fun _ _ well same => well.eq_of_key same

/-- What passes as nonterminals and terminals gives the names of the declared ones. -/
theorem Names.of_checks {nonterms : List { n : Text // n.isNontermName = true }}
    {terms : List { t : Text // t.isTermName = true }} (hn : ∀ v ∈ ns, v.WellNamedNonterm)
    (ht : ∀ v ∈ ts, v.WellNamedTerm)
    (first : (ValueSet.ofList ns).items.mapM checkNonterm = .ok nonterms)
    (second : (ValueSet.ofList ts).items.mapM checkTerm = .ok terms)
    : Names ns ts (Text.distinct (nonterms.map Subtype.val))
        (Text.distinct (terms.map Subtype.val)) := by
  constructor
  · intro v
    rw [← mem_ofList_iff (fun _ _ well same => well.eq_of_key same) hn,
      ← map_of_mapM (fun _ _ => eq_of_checkNonterm) first]
    simp [eq_comm (a := v)]
  · intro v
    rw [← mem_ofList_iff (fun _ _ well same => well.eq_of_key same) ht,
      ← map_of_mapM (fun _ _ => eq_of_checkTerm) second]
    simp [eq_comm (a := v)]

/-- A grammar is made of well-formed parts. -/
theorem exists_ofLists (well : WellFormed ns ts rs start)
    : ∃ g, ofLists (ValueSet.ofList ns).items (ValueSet.ofList ts).items rs start = .ok g := by
  have hn := forall_nonterms_iff.mpr well.nonterms
  have ht := forall_terms_iff.mpr well.terms
  obtain ⟨nonterms, first⟩ := exists_mapM_eq_ok fun v member => exists_checkNonterm (hn v member)
  obtain ⟨terms, second⟩ := exists_mapM_eq_ok fun v member => exists_checkTerm (ht v member)
  have names := Names.of_checks well.nonterms well.terms first second
  obtain ⟨rules, third⟩ :=
    exists_mapM_eq_ok fun v member => exists_checkRule names (well.rules v member)
  obtain ⟨name, last⟩ := exists_checkStart names well.start
  exact ⟨_, by simp only [ofLists, first, second, third, last, bind, Except.bind]; rfl⟩

/-- A grammar holds exactly these nonterminals and terminals, these rules in this order, and this
start symbol.
-/
structure Holds (g : Grammar) (ns ts rs : List Value) (start : Value) : Prop where
  names : Names ns ts g.nonterms g.terms
  rules : g.rules.map Rule.toValue = rs
  start : g.startSymbol.toValue = start

/-- A grammar that is made holds what it is made of: no part is dropped and none is added. -/
theorem holds_of_ofLists {g : Grammar}
    (made : ofLists (ValueSet.ofList ns).items (ValueSet.ofList ts).items rs start = .ok g)
    : g.Holds ns ts rs start := by
  obtain ⟨nonterms, first, made⟩ := Fault.bind_eq_ok_iff.mp made
  obtain ⟨terms, second, made⟩ := Fault.bind_eq_ok_iff.mp made
  obtain ⟨rules, third, made⟩ := Fault.bind_eq_ok_iff.mp made
  obtain ⟨name, last, made⟩ := Fault.bind_eq_ok_iff.mp made
  cases made
  have hn : ∀ v ∈ ns, v.WellNamedNonterm := by
    rw [← forall_nonterms_iff, ← map_of_mapM (fun _ _ => eq_of_checkNonterm) first]
    exact List.forall_mem_map.mpr fun n _ => Value.wellNamedNonterm_iff.mpr ⟨n, rfl, n.property⟩
  have ht : ∀ v ∈ ts, v.WellNamedTerm := by
    rw [← forall_terms_iff, ← map_of_mapM (fun _ _ => eq_of_checkTerm) second]
    exact List.forall_mem_map.mpr fun t _ => Value.wellNamedTerm_iff.mpr ⟨t, rfl, t.property⟩
  refine ⟨Names.of_checks hn ht first second, ?_, (eq_of_checkStart last).symm⟩
  rw [List.map_map]
  exact map_of_mapM (fun _ _ => eq_of_checkRule) third

/-- What a grammar holds is well-formed, since its own fields say so. -/
theorem Holds.wellFormed {g : Grammar} (holds : g.Holds ns ts rs start)
    : WellFormed ns ts rs start := by
  obtain ⟨names, rfl, rfl⟩ := holds
  constructor
  · intro v member
    obtain ⟨n, declared, rfl⟩ := names.nonterms.mp member
    exact Value.wellNamedNonterm_iff.mpr ⟨n, rfl, g.nonterms_named n declared⟩
  · intro v member
    obtain ⟨t, declared, rfl⟩ := names.terms.mp member
    exact Value.wellNamedTerm_iff.mpr ⟨t, rfl, g.terms_named t declared⟩
  · exact List.forall_mem_map.mpr fun r member =>
      ⟨r, rfl, names.declared_iff.mp (g.rules_declared r member)⟩
  · exact names.nonterms.mpr ⟨g.start, g.start_declared, rfl⟩

/-- Where some symbol does not pass, the first of them is reported. -/
theorem exists_refusal_of_symbols {β : Type} {check : Value → Except Fault β}
    {good : Value → Prop} {problem : Value → Problem}
    (accepts : ∀ {v}, good v → ∃ b, check v = .ok b)
    (refuses : ∀ {v}, ¬ good v → check v = (problem v).refuse) {values : List Value}
    (bad : ¬ ∀ v ∈ values, good v)
    : ∃ v ∈ values, ¬ good v ∧ values.mapM check = .error (problem v).fault := by
  obtain ⟨before, v, after, rfl, passes, malformed⟩ := exists_first_not bad
  have refused := (refuses malformed).trans (problem v).refuse_eq_error
  exact ⟨v, by simp, malformed, mapM_eq_error (fun u among => accepts (passes u among)) refused⟩

/-- Where some value is no declared rule, the first of them is reported. -/
theorem exists_refusal_of_rules {nonterms terms : List Text} (names : Names ns ts nonterms terms)
    (hashable : ∀ v ∈ rs, v.hashable = true) (bad : ¬ ∀ v ∈ rs, DeclaredRule ns ts v)
    : ∃ before v after problem,
        rs = before ++ v :: after
        ∧ (∀ u ∈ before, DeclaredRule ns ts u)
        ∧ RuleViolation ns ts v problem
        ∧ rs.mapM (checkRule nonterms terms) = .error problem.fault := by
  obtain ⟨before, v, after, rfl, declared, undeclared⟩ := exists_first_not bad
  obtain ⟨problem, violation, refused⟩ :=
    exists_refusal_of_checkRule names (hashable v (by simp)) undeclared
  rw [problem.refuse_eq_error] at refused
  exact ⟨before, v, after, problem, rfl, declared, violation,
    mapM_eq_error (fun u member => exists_checkRule names (declared u member)) refused⟩

/-- The first violation is reported, if the rules and the start symbol can be looked up. -/
theorem exists_fault_of_ofLists (hashable : ∀ v ∈ start :: rs, v.hashable = true)
    (bad : ¬ WellFormed ns ts rs start)
    : ∃ problem,
        FirstViolation ns ts rs start problem
        ∧ ofLists (ValueSet.ofList ns).items (ValueSet.ofList ts).items rs start
          = .error problem.fault := by
  obtain ⟨startHashable, rulesHashable⟩ := List.forall_mem_cons.mp hashable
  -- what is checked first decides, so the parts before the bad one have passed
  by_cases hn : ∀ v ∈ (ValueSet.ofList ns).items, v.WellNamedNonterm
  case neg =>
    obtain ⟨v, member, malformed, first⟩ :=
      exists_refusal_of_symbols exists_checkNonterm checkNonterm_eq_refuse hn
    have among := ValueSet.items_ofList_subset ns member
    exact ⟨_, .nonterm among malformed, by simp only [ofLists, first, bind, Except.bind]⟩
  obtain ⟨nonterms, first⟩ := exists_mapM_eq_ok fun v member => exists_checkNonterm (hn v member)
  rw [forall_nonterms_iff] at hn
  by_cases ht : ∀ v ∈ (ValueSet.ofList ts).items, v.WellNamedTerm
  case neg =>
    obtain ⟨v, member, malformed, second⟩ :=
      exists_refusal_of_symbols exists_checkTerm checkTerm_eq_refuse ht
    have among := ValueSet.items_ofList_subset ts member
    exact ⟨_, .term hn among malformed, by simp only [ofLists, first, second, bind, Except.bind]⟩
  obtain ⟨terms, second⟩ := exists_mapM_eq_ok fun v member => exists_checkTerm (ht v member)
  rw [forall_terms_iff] at ht
  have names := Names.of_checks hn ht first second
  by_cases hr : ∀ v ∈ rs, DeclaredRule ns ts v
  case neg =>
    obtain ⟨before, v, after, problem, split, declared, violation, third⟩ :=
      exists_refusal_of_rules names rulesHashable hr
    exact ⟨problem, .rule hn ht split declared violation, by
      simp only [ofLists, first, second, third, bind, Except.bind]⟩
  obtain ⟨rules, third⟩ := exists_mapM_eq_ok fun v member => exists_checkRule names (hr v member)
  have undeclared : start ∉ ns := fun member => bad ⟨hn, ht, hr, member⟩
  have last := (checkStart_eq_refuse names startHashable undeclared).trans
    (Problem.undeclaredStart start).refuse_eq_error
  exact ⟨_, .start hn ht hr undeclared, by
    simp only [ofLists, first, second, third, last, bind, Except.bind]⟩

/-- What is wrong with a rule is about the rule, its nonterminal and the symbols of its body. -/
theorem RuleViolation.named {v : Value} {problem : Problem}
    (violation : RuleViolation ns ts v problem) (named : v.isTextNamed = true)
    : ∀ w ∈ problem.values, w.isTextNamed = true := by
  cases violation with
  | notRule => exact List.forall_mem_singleton.mpr named
  | head => exact List.forall_mem_singleton.mpr (Rule.isTextNamed_parts named).1
  | @symbol r before after x head split declared undeclared =>
      have occurs : x ∈ r.rhs := by simp [split]
      exact List.forall_mem_cons.mpr ⟨(Rule.isTextNamed_parts named).2 x occurs,
        List.forall_mem_singleton.mpr named⟩

/-- The first violation is about values that are given, and so their names are texts if those of the
given ones are.
-/
theorem FirstViolation.named {problem : Problem}
    (violation : FirstViolation ns ts rs start problem)
    (named : ∀ v ∈ start :: (ns ++ ts ++ rs), v.isTextNamed = true)
    : ∀ w ∈ problem.values, w.isTextNamed = true := by
  simp only [List.forall_mem_cons, List.forall_mem_append] at named
  obtain ⟨first, ⟨nonterms, terms⟩, rules⟩ := named
  cases violation with
  | nonterm member => exact List.forall_mem_singleton.mpr (nonterms _ member)
  | term _ member => exact List.forall_mem_singleton.mpr (terms _ member)
  | rule _ _ split _ violation => exact violation.named (rules _ (by simp [split]))
  | start => exact List.forall_mem_singleton.mpr first

/-- The first violation is reported as such, if all values can be written and looked up. -/
theorem exists_refusal_of_ofLists
    (plain : ∀ v ∈ start :: (ns ++ ts ++ rs), v.hashable = true ∧ v.isTextNamed = true)
    (bad : ¬ WellFormed ns ts rs start)
    : ∃ problem,
        FirstViolation ns ts rs start problem
        ∧ ofLists (ValueSet.ofList ns).items (ValueSet.ofList ts).items rs start
          = .error (.invalid problem) := by
  have hashable : ∀ v ∈ start :: rs, v.hashable = true := fun v member =>
    (plain v (List.cons_subset_cons start (List.subset_append_right _ rs) member)).1
  obtain ⟨problem, violation, refused⟩ := exists_fault_of_ofLists hashable bad
  rw [Problem.fault_eq (violation.named fun v member => (plain v member).2)] at refused
  exact ⟨problem, violation, refused⟩

/-- The end mark is no declared symbol. -/
theorem WellFormed.not_knows_endMark (well : WellFormed ns ts rs start)
    : ¬ Knows ns ts .endMark := by
  rintro (among | among | same)
  · obtain ⟨_, _, other, _⟩ := well.nonterms _ among
    cases other
  · obtain ⟨_, other, _⟩ := well.terms _ among
    cases other
  · cases same

/-- The rules of a well-formed grammar have no end mark, since it is not declared. -/
theorem WellFormed.not_endMark_mem (well : WellFormed ns ts rs start) {r : Rule}
    (member : r.toValue ∈ rs)
    : .endMark ∉ r.rhs := by
  obtain ⟨s, same, _, known⟩ := well.rules r.toValue member
  have same : r = s := by simpa using congrArg Rule.ofValue? same
  exact fun occurs => well.not_knows_endMark (known _ (same ▸ occurs))

end Lists

section Values

variable {nonterms terms rules start : Value} {ns ts rs : List Value}

/-- Values with elements that can be looked up are taken as the sets and the list of their elements.
-/
theorem ofValues_eq (hn : nonterms.elements = .ok ns) (ht : terms.elements = .ok ts)
    (hr : rules.elements = .ok rs) (hashable : ∀ v ∈ ns ++ ts, v.hashable = true)
    : ofValues nonterms terms rules start
      = ofLists (ValueSet.ofList ns).items (ValueSet.ofList ts).items rs start := by
  obtain ⟨first, second⟩ := List.forall_mem_append.mp hashable
  simp only [ofValues, ValueSet.ofValue, hn, ht, hr, Value.allHashable_iff.mpr first,
    Value.allHashable_iff.mpr second, bind, Except.bind, if_true]

theorem eq_ofList_of_ofValue {value : Value} {items : List Value} {s : ValueSet}
    (elements : value.elements = .ok items) (made : ValueSet.ofValue value = .ok s)
    : s = .ofList items := by
  rw [ValueSet.ofValue, elements] at made
  simp only [bind, Except.bind] at made
  split at made
  · exact (Except.ok.inj made).symm
  · cases made

/-- An accepted grammar holds the elements of the values that it was made of, and nothing else. -/
theorem holds_of_ofValues (hn : nonterms.elements = .ok ns) (ht : terms.elements = .ok ts)
    (hr : rules.elements = .ok rs) {g : Grammar}
    (made : ofValues nonterms terms rules start = .ok g)
    : g.Holds ns ts rs start := by
  obtain ⟨s, first, made⟩ := Fault.bind_eq_ok_iff.mp made
  obtain ⟨t, second, made⟩ := Fault.bind_eq_ok_iff.mp made
  obtain ⟨listed, third, made⟩ := Fault.bind_eq_ok_iff.mp made
  obtain rfl := eq_ofList_of_ofValue hn first
  obtain rfl := eq_ofList_of_ofValue ht second
  cases hr.symm.trans third
  exact holds_of_ofLists made

/-- A grammar can be made of well-formed parts, and of no others. -/
theorem exists_ofValues_iff (hn : nonterms.elements = .ok ns) (ht : terms.elements = .ok ts)
    (hr : rules.elements = .ok rs)
    : (∃ g, ofValues nonterms terms rules start = .ok g) ↔ WellFormed ns ts rs start := by
  constructor
  · rintro ⟨g, made⟩
    exact (holds_of_ofValues hn ht hr made).wellFormed
  · intro well
    have hashable : ∀ v ∈ ns ++ ts, v.hashable = true := List.forall_mem_append.mpr
      ⟨fun v member => (well.nonterms v member).hashable,
        fun v member => (well.terms v member).hashable⟩
    rw [ofValues_eq hn ht hr hashable]
    exact exists_ofLists well

end Values

/-- Rules and grammars are made of exactly the well-formed parts. A rule keeps its symbols, which
are the mark of the empty word by itself, or some others without it. The rules of a grammar have no
end marks. And if its parts are not well-formed, while all values in them can be looked up and all
symbols in them have texts as their names, the first violation is reported.
-/
theorem construction_iff_wellFormed
    : (∀ (lhs rhs : Value) (n : Nat) (items : List Value),
        rhs.length = .ok n
        → rhs.elements = .ok items
        → ((∃ r, Rule.ofValues lhs rhs = .ok r) ↔ Rule.WellFormed lhs items)
          ∧ ∀ r,
              Rule.ofValues lhs rhs = .ok r
              → r.lhs = lhs
                ∧ r.rhs = (if items = [] then [.epsilon] else items)
                ∧ (r.rhs = [.epsilon] ∨ r.rhs ≠ [] ∧ .epsilon ∉ r.rhs))
      ∧ ∀ (nonterms terms rules start : Value) (ns ts rs : List Value),
          nonterms.elements = .ok ns
          → terms.elements = .ok ts
          → rules.elements = .ok rs
          → ((∃ g, ofValues nonterms terms rules start = .ok g) ↔ WellFormed ns ts rs start)
            ∧ (WellFormed ns ts rs start → ∀ r : Rule, r.toValue ∈ rs → .endMark ∉ r.rhs)
            ∧ ((∀ v ∈ start :: (ns ++ ts ++ rs), v.hashable = true ∧ v.isTextNamed = true)
              → ¬ WellFormed ns ts rs start
              → ∃ problem,
                  FirstViolation ns ts rs start problem
                  ∧ ofValues nonterms terms rules start = .error (.invalid problem)) := by
  refine ⟨fun _ _ _ _ sized elements => Rule.ofValues_spec sized elements, ?_⟩
  intro nonterms terms rules start ns ts rs hn ht hr
  refine ⟨exists_ofValues_iff hn ht hr, fun well r => well.not_endMark_mem, fun plain bad => ?_⟩
  have hashable : ∀ v ∈ ns ++ ts, v.hashable = true := fun v member =>
    (plain v (List.mem_cons_of_mem _ (List.mem_append_left rs member))).1
  rw [ofValues_eq hn ht hr hashable]
  exact exists_refusal_of_ofLists plain bad

/-- With a rule that has an end mark, and with a line end behind the name of a nonterminal. -/
theorem construction_iff_wellFormed_letters
    : let s : Value := .nonterm (.text (.ofString "S"))
      let a : Value := .term (.text (.ofString "a"))
      let line : Value := .nonterm (.text (.ofString "S\n"))
      let good : Rule := ⟨.text (.ofString "S"), [.term (.text (.ofString "a"))]⟩
      let ended : Rule := ⟨.text (.ofString "S"), [.term (.text (.ofString "a")), .endMark]⟩
      Rule.WellFormed s [a, .endMark]
      ∧ WellFormed [s] [a] [good.toValue] s
      ∧ .endMark ∉ good.rhs
      ∧ ¬ WellFormed [s] [a] [good.toValue, ended.toValue] s
      ∧ (∃ problem,
          FirstViolation [s] [a] [good.toValue, ended.toValue] s problem
          ∧ ofValues (.list [s]) (.list [a]) (.list [good.toValue, ended.toValue]) s
            = .error (.invalid problem))
      ∧ ¬ WellFormed [line] [] [] line := by
  intro s a line good ended
  obtain ⟨rules, grammars⟩ := construction_iff_wellFormed
  obtain ⟨ruleIff, _⟩ := rules s (.tuple [a, .endMark]) 2 [a, .endMark] rfl rfl
  have accepts := grammars (.list [s]) (.list [a]) (.list [good.toValue]) s _ _ _ rfl rfl rfl
  have refuses :=
    grammars (.list [s]) (.list [a]) (.list [good.toValue, ended.toValue]) s _ _ _ rfl rfl rfl
  have named := grammars (.list [line]) (.list []) (.list []) line _ _ _ rfl rfl rfl
  have well : WellFormed [s] [a] [good.toValue] s := accepts.1.mp ⟨_, rfl⟩
  have bad : ¬ WellFormed [s] [a] [good.toValue, ended.toValue] s := fun well => by
    obtain ⟨g, made⟩ := refuses.1.mpr well
    cases made
  refine ⟨ruleIff.mp ⟨_, rfl⟩, well, accepts.2.1 well good (List.mem_singleton_self _), bad,
    refuses.2.2 (by decide) bad, fun well => ?_⟩
  obtain ⟨g, made⟩ := named.1.mpr well
  cases made

end Grammar

end PredictiveParsing
