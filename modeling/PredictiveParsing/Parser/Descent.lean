import PredictiveParsing.Parser

/-! Predictive parsing by recursive descent: each symbol is parsed by a call of its own, and
the calls for the symbols of a body follow one another.
-/

namespace PredictiveParsing.Parser

variable {τ : Type}

/-- What parsing a symbol, or the symbols of a body, leads to. -/
inductive Descent (α τ : Type) where
  /-- There is a tree, or a tree for each symbol, and these tokens are left. -/
  | built (result : α) (rest : List τ)
  /-- Something else was expected before these tokens. -/
  | stuck (rest : List τ)
  /-- The matcher or a look-up failed. -/
  | failed (fault : Fault)

/-- Parses the symbols of a body from left to right, each by a given call. -/
def descendBody (call : Symbol → List τ → Option (Descent (Tree τ) τ))
    : List Symbol → List τ → Option (Descent (List (Tree τ)) τ)
  | [], tokens => some (.built [] tokens)
  | s :: body, tokens => do
      match ← call s tokens with
      | .stuck rest => some (.stuck rest)
      | .failed fault => some (.failed fault)
      | .built tree rest =>
          match ← descendBody call body rest with
          | .stuck rest => some (.stuck rest)
          | .failed fault => some (.failed fault)
          | .built trees rest => some (.built (tree :: trees) rest)

/-- Parses a symbol by calls that are nested at most `depth` deep. -/
def descend (p : Parser τ) : Nat → Symbol → List τ → Option (Descent (Tree τ) τ)
  | 0, _, _ => none
  | depth + 1, s, tokens =>
      match p.lookahead tokens with
      | .error fault => some (.failed fault)
      | .ok focus =>
          match s, tokens with
          | .endMark, tokens => some (.stuck tokens)
          | .term name, token :: rest =>
              if focus.key = (Value.term name).key then some (.built (.leaf token) rest)
              else some (.stuck (token :: rest))
          | .term _, [] => some (.stuck [])
          | .nonterm name, tokens =>
              match p.choose (.nonterm name) focus with
              | .error fault => some (.failed fault)
              | .ok none => some (.stuck tokens)
              | .ok (some r) =>
                  if r.isEmpty then some (.built (.node (.nonterm name) []) tokens)
                  else do
                    match ← descendBody (p.descend depth) r.body tokens with
                    | .stuck rest => some (.stuck rest)
                    | .failed fault => some (.failed fault)
                    | .built trees rest => some (.built (.node r.lhs trees) rest)

end PredictiveParsing.Parser
