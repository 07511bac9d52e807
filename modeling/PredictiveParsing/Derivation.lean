import PredictiveParsing.Grammar

/-! Derivations: replacing nonterminals by the bodies of their rules, one at a time. -/

namespace PredictiveParsing

def TerminalWord (word : List Symbol) : Prop :=
  ∀ s ∈ word, ∃ name, s = .term name

/-- Terminals behind terminals are a word of terminals. -/
theorem TerminalWord.append {word more : List Symbol} (first : TerminalWord word)
    (second : TerminalWord more)
    : TerminalWord (word ++ more) := by
  intro s hs
  exact (List.mem_append.mp hs).elim (first s) (second s)

/-- A symbol sequence derives another one by the rules of a set in any number of steps, each of
which replaces some nonterminal by the body of one of its rules.
-/
inductive Derives (rules : Rule → Prop) : List Symbol → List Symbol → Prop where
  | refl (word : List Symbol) : Derives rules word word
  | step {r : Rule} {before after word : List Symbol} (hr : rules r)
    (rest : Derives rules (before ++ r.body ++ after) word)
    : Derives rules (before ++ r.symbol :: after) word

/-- A derivation in which every step replaces the leftmost nonterminal. -/
inductive LeftDerives (rules : Rule → Prop) : List Symbol → List Symbol → Prop where
  | refl (word : List Symbol) : LeftDerives rules word word
  | step {r : Rule} {before after word : List Symbol} (hr : rules r)
    (hbefore : TerminalWord before) (rest : LeftDerives rules (before ++ r.body ++ after) word)
    : LeftDerives rules (before ++ r.symbol :: after) word

namespace Derives

variable {rules : Rule → Prop}

/-- Derivations compose, by induction on the first. -/
theorem trans {a b c : List Symbol} (h : Derives rules a b) (k : Derives rules b c)
    : Derives rules a c := by
  induction h with
  | refl => exact k
  | step hr _ ih => exact .step hr (ih k)

/-- A rule derives its body from its nonterminal. -/
theorem of_rule {r : Rule} (hr : rules r) : Derives rules [r.symbol] r.body := by
  simpa using @Derives.step rules r [] [] ([] ++ r.body ++ []) hr (.refl _)

/-- What is derived may stand between other symbols, by induction on the derivation. -/
theorem context {a b : List Symbol} (h : Derives rules a b) (before after : List Symbol)
    : Derives rules (before ++ a ++ after) (before ++ b ++ after) := by
  induction h with
  | refl => exact .refl _
  | @step r pre post word hr _ ih =>
      have := @Derives.step rules r (before ++ pre) (post ++ after) (before ++ word ++ after) hr
        (by simpa using ih)
      simpa using this

/-- What a symbol derives may take its place between other symbols. -/
theorem inside {s : Symbol} {word : List Symbol} (h : Derives rules [s] word)
    (front back : List Symbol)
    : Derives rules (front ++ s :: back) (front ++ (word ++ back)) := by
  simpa using h.context front back

/-- What is derived may stand behind a symbol that stays. -/
theorem behind {a b : List Symbol} (h : Derives rules a b) (front : List Symbol) (s : Symbol)
    : Derives rules (front ++ s :: a) (front ++ s :: b) := by
  simpa using h.context (front ++ [s]) []

/-- Parts are derived side by side. -/
theorem append {a b c d : List Symbol} (h : Derives rules a b) (k : Derives rules c d)
    : Derives rules (a ++ c) (b ++ d) := by
  have h' := h.context [] c
  have k' := k.context b []
  simp only [List.nil_append, List.append_nil] at h' k'
  exact h'.trans k'

end Derives

/-- A derivation that replaces leftmost nonterminals is a derivation, by induction. -/
theorem LeftDerives.derives {rules : Rule → Prop} {a b : List Symbol}
    (h : LeftDerives rules a b)
    : Derives rules a b := by
  induction h with
  | refl => exact .refl _
  | step hr _ _ ih => exact .step hr ih

namespace Grammar

def Derives (g : Grammar) : List Symbol → List Symbol → Prop :=
  PredictiveParsing.Derives fun r => r ∈ g.rules

def LeftDerives (g : Grammar) : List Symbol → List Symbol → Prop :=
  PredictiveParsing.LeftDerives fun r => r ∈ g.rules

/-- The words of terminals that the start symbol derives. -/
def Language (g : Grammar) (word : List Symbol) : Prop :=
  TerminalWord word ∧ g.Derives [g.startSymbol] word

end Grammar

end PredictiveParsing
