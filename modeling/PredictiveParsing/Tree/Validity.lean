import PredictiveParsing.Tree

/-! Derivation trees: which trees stand for a symbol by the rules of a set. -/

namespace PredictiveParsing.Tree

variable {τ : Type}

mutual

/-- A tree stands for a symbol: a token for the terminal that it matches, and a node for the
nonterminal of a rule whose body its children stand for. Symbols that count as one are not
told apart.
-/
inductive Valid (rules : Rule → Prop) (terminalOf : τ → Value) : Symbol → Tree τ → Prop where
  | leaf {name : Value} {token : τ} (h : (terminalOf token).key = (Value.term name).key)
    : Valid rules terminalOf (.term name) (.leaf token)
  | node {name symbol : Value} {r : Rule} {children : List (Tree τ)} (hr : rules r)
    (hname : r.head.key = name.key) (hsymbol : symbol.key = (Value.nonterm name).key)
    (below : ValidAll rules terminalOf r.body children)
    : Valid rules terminalOf (.nonterm name) (.node symbol children)

inductive ValidAll (rules : Rule → Prop) (terminalOf : τ → Value)
    : List Symbol → List (Tree τ) → Prop where
  | nil : ValidAll rules terminalOf [] []
  | cons {s : Symbol} {rest : List Symbol} {tree : Tree τ} {trees : List (Tree τ)}
    (head : Valid rules terminalOf s tree) (tail : ValidAll rules terminalOf rest trees)
    : ValidAll rules terminalOf (s :: rest) (tree :: trees)

end

end PredictiveParsing.Tree
