import PredictiveParsing.Rule

/-! Context-free grammars whose rules and start symbol are declared.
-/

namespace PredictiveParsing

/-- A symbol is declared by names of nonterminals and names of terminals. The end mark never
is.
-/
def Symbol.Declared (nonterms terms : List Text) : Symbol → Prop
  | .nonterm name => ∃ n ∈ nonterms, name = .text n
  | .term name => ∃ t ∈ terms, name = .text t
  | .endMark => False

instance (nonterms terms : List Text) (s : Symbol) : Decidable (s.Declared nonterms terms) := by
  cases s <;> unfold Symbol.Declared <;> infer_instance

/-- A rule is declared when its nonterminal and all symbols of its body are. -/
def Rule.Declared (nonterms terms : List Text) (r : Rule) : Prop :=
  (∃ n ∈ nonterms, r.head = .text n) ∧ ∀ s ∈ r.body, s.Declared nonterms terms

/-- A grammar: the names of its nonterminals and terminals, its rules in the order of their
declaration, and the name of its start symbol.
-/
structure Grammar where
  nonterms : List Text
  terms : List Text
  rules : List Rule
  start : Text
  nonterms_nodup : nonterms.Nodup
  terms_nodup : terms.Nodup
  nonterms_named : ∀ n ∈ nonterms, n.isNontermName = true
  terms_named : ∀ t ∈ terms, t.isTermName = true
  rules_declared : ∀ r ∈ rules, r.Declared nonterms terms
  start_declared : start ∈ nonterms

namespace Grammar

def startSymbol (g : Grammar) : Symbol :=
  .nonterm (.text g.start)

/-- The start symbol is declared. -/
theorem start_isDeclared (g : Grammar) : g.startSymbol.Declared g.nonterms g.terms :=
  ⟨g.start, g.start_declared, rfl⟩

def nontermValues (g : Grammar) : List Value :=
  g.nonterms.map fun n => .nonterm (.text n)

/-- Two grammars are the same when they declare the same symbols and have the same start
symbol, and their rules in order count as one.
-/
def same (g h : Grammar) : Bool :=
  g.nonterms.all h.nonterms.contains && h.nonterms.all g.nonterms.contains
    && g.terms.all h.terms.contains && h.terms.all g.terms.contains
    && decide (g.rules.map Rule.key = h.rules.map Rule.key) && decide (g.start = h.start)

/-- The rules of a nonterminal, in the order of their declaration. -/
def rulesOf (g : Grammar) : Value → Except Fault (List Rule)
  | .nonterm name => .ok (g.rules.filter fun r => decide (r.head.key = name.key))
  | _ => .error .notNonterm

end Grammar

end PredictiveParsing
