import PredictiveParsing.Analysis.Predictor
import PredictiveParsing.Proofs.FollowSets

/-! Lookaheads over a word and what stands behind it. The value of a lookahead either begins
the word, or the word can vanish and the value is found behind.
-/

namespace PredictiveParsing

/-- The terminal of the next token, or the end mark behind the last one. -/
def nextOf {τ : Type} (terminalOf : τ → Value) : List τ → Value
  | [] => .endMark
  | token :: _ => terminalOf token

namespace SetMap

/-- A lookahead of a word begins the word, or stands behind the word if that can vanish. -/
def Leads (first : SetMap) (behind : Value → Prop) (word : List Symbol) (v : Value) : Prop :=
  (v ≠ .epsilon ∧ (first.firstOf (word.map Symbol.toValue)).has v = true)
  ∨ ((first.firstOf (word.map Symbol.toValue)).has .epsilon = true ∧ behind v)

variable {first : SetMap} {behind : Value → Prop} {v : Value}

/-- The empty word has the lookaheads of what stands behind it. -/
theorem leads_nil : first.Leads behind [] v ↔ behind v := by
  have word : first.firstOf [] = .singleton .epsilon := rfl
  simp only [Leads, List.map_nil, word, ValueSet.has_singleton, decide_eq_true_eq]
  constructor
  · rintro (⟨proper, same⟩ | ⟨_, found⟩)
    · exact absurd (Value.key_eq_epsilon.mp same.symm) proper
    · exact found
  · exact fun found => Or.inr ⟨trivial, found⟩

/-- A lookahead of a word begins its first symbol or, if this can vanish, is one of the rest. -/
theorem leads_cons {s : Symbol} {word : List Symbol}
    : first.Leads behind (s :: word) v
      ↔ (v ≠ .epsilon ∧ (first.firstOfSymbol s.toValue).has v = true)
        ∨ ((first.firstOfSymbol s.toValue).has .epsilon = true ∧ first.Leads behind word v) := by
  simp only [Leads, List.map_cons, has_firstOf_cons]
  by_cases mark : v = .epsilon
  · simp [mark, and_assoc]
  · simp only [mark, ne_eq, not_false_eq_true, true_and, if_false, if_true, Bool.or_eq_true,
      Bool.and_eq_true]
    tauto

/-- What leads a word before another word leads both, by induction on the first word. -/
theorem leads_append {word more : List Symbol}
    : first.Leads behind (word ++ more) v ↔ first.Leads (first.Leads behind more) word v := by
  induction word with
  | nil => rw [List.nil_append, leads_nil]
  | cons s word ih => rw [List.cons_append, leads_cons, leads_cons, ih]

theorem Leads.mono {other : Value → Prop} {word : List Symbol}
    (leads : first.Leads behind word v) (more : behind v → other v)
    : first.Leads other word v :=
  leads.imp_right fun ⟨vanishes, found⟩ => ⟨vanishes, more found⟩

end SetMap

/-- The directing set of a rule has the lookaheads of its body, with what follows its nonterminal
behind it.
-/
theorem Rule.has_directingSet {first follow : SetMap} {r : Rule} {v : Value}
    : (r.directingSet first follow).has v = true
      ↔ first.Leads (fun v => (follow.setOf r.lhs).has v = true) r.body v := by
  simp only [directingSet, SetMap.Leads]
  change _ ↔ (v ≠ .epsilon ∧ (first.firstOf r.word).has v = true)
    ∨ ((first.firstOf r.word).has .epsilon = true ∧ _)
  cases vanishes : (first.firstOf r.word).has .epsilon with
  | true => simp [Value.key, and_comm]
  | false =>
      simp only [Bool.false_eq_true, if_false, false_and, or_false]
      refine ⟨fun found => ⟨?_, found⟩, And.right⟩
      rintro rfl
      simp [vanishes] at found

namespace Grammar

def Follows (g : Grammar) (name v : Value) : Prop :=
  ((g.follow g.first g.nullable).setOf (.nonterm name)).has v = true

def Selects (g : Grammar) (r : Rule) (v : Value) : Prop :=
  g.first.Leads (g.Follows r.head) r.body v

theorem selects_iff {g : Grammar} {r : Rule} {v : Value}
    : g.Selects r v
      ↔ (r.directingSet g.first (g.follow g.first g.nullable)).has v = true :=
  Rule.has_directingSet.symm

theorem follows_start (g : Grammar) : g.Follows (.text g.start) .endMark :=
  g.has_follow_start g.first g.nullable

/-- What begins a symbol leads every word that begins with it. -/
theorem leads_of_begins {g : Grammar} {s : Symbol} {v : Value} (begins : g.Begins s v)
    {behind : Value → Prop} (word : List Symbol)
    : g.first.Leads behind (s :: word) v := by
  rw [SetMap.leads_cons]
  exact Or.inl ⟨begins.ne_epsilon, begins.has_first⟩

/-- A lookahead of the body of a rule is one of its nonterminal. -/
theorem leads_of_rule {g : Grammar} {r : Rule} (member : r ∈ g.rules) {behind : Value → Prop}
    {v : Value} (leads : g.first.Leads behind r.body v)
    : g.first.Leads behind [r.symbol] v := by
  rw [SetMap.leads_cons, SetMap.leads_nil]
  exact leads.imp
    (fun ⟨proper, begins⟩ => ⟨proper, firstOf_le_first member v begins⟩)
    (fun ⟨vanishes, found⟩ => ⟨firstOf_le_first member _ vanishes, found⟩)

/-- A lookahead of what stands behind a nonterminal in a body follows the nonterminal. The rest
of the body vanishes by the mark in the first sets, and thus by the set of vanishing symbols
too, from which follow sets are computed.
-/
theorem follows_of_leads {g : Grammar} {r : Rule} (member : r ∈ g.rules)
    {before after : List Symbol} {name v : Value}
    (split : r.body = before ++ .nonterm name :: after)
    (leads : g.first.Leads (g.Follows r.head) after v)
    : g.Follows name v := by
  rcases leads with ⟨proper, begins⟩ | ⟨vanishes, follows⟩
  · exact has_follow_of_first g.nullable member split proper begins
  · have declared : ∀ s ∈ after, s.Declared g.nonterms g.terms := fun s hs =>
      (g.rules_declared r member).2 s (by simp [split, hs])
    refine setOf_lhs_le_follow g.first member split (fun s hs => ?_) v follows
    exact (g.explained_first.vanish_of_firstOf declared vanishes s hs).has_nullable

end Grammar

end PredictiveParsing
