import PredictiveParsing.Grammar

/-! Making a grammar from arbitrary values. The parts are checked in the order nonterminals,
terminals, rules, start symbol, and the first problem found decides.
-/

namespace PredictiveParsing.Grammar

/-- The name of a value that has to be a well-named nonterminal. -/
def checkNonterm : Value → Except Fault { n : Text // n.isNontermName = true }
  | .nonterm (.text n) =>
      if h : n.isNontermName = true then .ok ⟨n, h⟩
      else (Problem.malformedNonterm (.nonterm (.text n))).refuse
  | value => (Problem.malformedNonterm value).refuse

def checkTerm : Value → Except Fault { t : Text // t.isTermName = true }
  | .term (.text t) =>
      if h : t.isTermName = true then .ok ⟨t, h⟩
      else (Problem.malformedTerm (.term (.text t))).refuse
  | value => (Problem.malformedTerm value).refuse

section Rules

variable (nonterms terms : List Text)

/-- Checks that the symbols of a part of a rule's body are declared. -/
def checkBody (r : Rule)
    : (body : List Symbol) → Except Fault (PLift (∀ s ∈ body, s.Declared nonterms terms))
  | [] => .ok ⟨by simp⟩
  | s :: rest => do
      s.toValue.checkHashable
      if h : s.Declared nonterms terms then
        let ⟨hrest⟩ ← checkBody r rest
        .ok ⟨List.forall_mem_cons.mpr ⟨h, hrest⟩⟩
      else
        (Problem.undeclaredSymbol s.toValue r.toValue).refuse

def checkRule (value : Value) : Except Fault { r : Rule // r.Declared nonterms terms } :=
  match Rule.ofValue? value with
  | none => (Problem.notRule value).refuse
  | some r => do
      r.lhs.checkHashable
      if h : ∃ n ∈ nonterms, r.head = .text n then
        let ⟨hbody⟩ ← checkBody nonterms terms r r.body
        .ok ⟨r, h, hbody⟩
      else
        (Problem.undeclaredHead r.lhs).refuse

def checkStart : Value → Except Fault { n : Text // n ∈ nonterms }
  | .nonterm (.text n) =>
      if h : n ∈ nonterms then .ok ⟨n, h⟩
      else (Problem.undeclaredStart (.nonterm (.text n))).refuse
  | value => do
      value.checkHashable
      (Problem.undeclaredStart value).refuse

end Rules

/-- The grammar of lists of nonterminals, terminals and rules and a start symbol. What is
declared more than once counts once.
-/
def ofLists (nonterms terms rules : List Value) (start : Value) : Except Fault Grammar := do
  let ns ← nonterms.mapM checkNonterm
  let ts ← terms.mapM checkTerm
  let nonterms := Text.distinct (ns.map Subtype.val)
  let terms := Text.distinct (ts.map Subtype.val)
  let rs ← rules.mapM (checkRule nonterms terms)
  let ⟨start, hstart⟩ ← checkStart nonterms start
  .ok {
    nonterms, terms, start
    rules := rs.map Subtype.val
    nonterms_nodup := Text.nodup_distinct _
    terms_nodup := Text.nodup_distinct _
    nonterms_named := by
      intro n hn
      obtain ⟨m, _, rfl⟩ := List.mem_map.mp (Text.mem_distinct.mp hn)
      exact m.property
    terms_named := by
      intro t ht
      obtain ⟨u, _, rfl⟩ := List.mem_map.mp (Text.mem_distinct.mp ht)
      exact u.property
    rules_declared := by
      intro r hr
      obtain ⟨s, _, rfl⟩ := List.mem_map.mp hr
      exact s.property
    start_declared := hstart
  }

/-- The grammar of values that need not have elements, whose elements need not be fit for a
set of symbols. Both are settled before the parts are checked.
-/
def ofValues (nonterms terms rules start : Value) : Except Fault Grammar := do
  let nonterms ← ValueSet.ofValue nonterms
  let terms ← ValueSet.ofValue terms
  let rules ← rules.elements
  ofLists nonterms.items terms.items rules start

end PredictiveParsing.Grammar
