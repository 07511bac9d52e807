import PredictiveParsing.Proofs.FollowDerivations
import PredictiveParsing.Proofs.RuleChoice
import PredictiveParsing.Proofs.UsefulSymbols

/-! A grammar has no conflicts if and only if the next terminal decides the rule for each
nonterminal in its leftmost derivations.
-/

namespace PredictiveParsing.Grammar

variable {g : Grammar}

/-- The next terminal decides: when a nonterminal behind terminals is replaced in two leftmost
derivations that are the same so far, and both lead to words that begin with the same terminal
behind these terminals, or end there, then it is replaced by the same body.
-/
def NextTerminalDecides (g : Grammar) : Prop :=
  ∀ (r s : Rule) (read rest left right : List Symbol),
    r ∈ g.rules
    → s ∈ g.rules
    → r.head = s.head
    → TerminalWord read
    → TerminalWord left
    → TerminalWord right
    → g.LeftDerives [g.startSymbol] (read ++ r.symbol :: rest)
    → g.LeftDerives (read ++ r.body ++ rest) (read ++ left)
    → g.LeftDerives (read ++ s.body ++ rest) (read ++ right)
    → left.head? = right.head?
    → r.body = s.body

/-- The first terminal of a word, or the end mark if there is none. -/
abbrev nextValue (word : List Symbol) : Value :=
  nextOf Symbol.toValue word

/-- Words of terminals have the same next value if they begin with the same terminal, or are both
empty.
-/
theorem nextValue_eq_iff {left right : List Symbol} (terminal : TerminalWord left)
    (terminal' : TerminalWord right)
    : nextValue left = nextValue right ↔ left.head? = right.head? := by
  have proper {s : Symbol} {word : List Symbol} (terminal : TerminalWord (s :: word))
      : s.toValue ≠ .endMark := by
    obtain ⟨name, rfl⟩ := terminal s List.mem_cons_self
    simp [Symbol.toValue]
  cases left with
  | nil =>
      cases right with
      | nil => simp
      | cons t right => simp [nextOf, Ne.symm (proper terminal')]
  | cons s left =>
      cases right with
      | nil => simp [nextOf, proper terminal]
      | cons t right =>
          simp only [nextOf, List.head?_cons, Option.some.injEq]
          exact ⟨Symbol.toValue_injective, congrArg Symbol.toValue⟩

-----------------------------------------------------------------------------------------
-- The next terminal selects the rule that is used
-----------------------------------------------------------------------------------------

/-- The first terminal of a word is a lookahead of it. So is the end mark of the empty word, since
it follows the start symbol.
-/
theorem leads_nextValue {word : List Symbol} (terminal : TerminalWord word)
    : g.first.Leads (g.Follows (.text g.start)) word (nextValue word) := by
  cases word with
  | nil => exact SetMap.leads_nil.mpr g.follows_start
  | cons s word =>
      obtain ⟨name, rfl⟩ := terminal s List.mem_cons_self
      exact leads_term _ _ _ _

/-- The rule that replaces a nonterminal is selected by the next terminal: this is a lookahead of
the body before whatever stands behind the nonterminal, and what leads that follows the
nonterminal.
-/
theorem selects_of_derives {r : Rule} {read rest word : List Symbol} (terminal : TerminalWord read)
    (terminal' : TerminalWord word) (derives : g.Derives [g.startSymbol] (read ++ r.symbol :: rest))
    (later : g.Derives (read ++ r.body ++ rest) (read ++ word))
    : g.Selects r (nextValue word) := by
  rw [List.append_assoc] at later
  have leads := leads_of_derives (later.cancel_terminals terminal) (leads_nextValue terminal')
  rw [SetMap.leads_append] at leads
  exact leads.mono (follows_of_derives derives)

/-- Without conflicts the next terminal decides: it is a lookahead of both rules, and so they are
one rule.
-/
theorem nextTerminalDecides_of_isLL1 (ll1 : g.isLL1 = true) : g.NextTerminalDecides := by
  intro r s read rest left right hr hs heads terminal hleft hright derives first second same
  have here : r.symbol = s.symbol := congrArg Symbol.nonterm heads
  have selected := selects_of_derives terminal hleft derives.derives first.derives
  rw [here] at derives
  have selected' := selects_of_derives terminal hright derives.derives second.derives
  rw [← (nextValue_eq_iff hleft hright).mpr same] at selected'
  exact congrArg Rule.body (eq_of_selects ll1 hr hs (congrArg Value.key heads) selected selected')

-----------------------------------------------------------------------------------------
-- Rules with a common lookahead are used in derivations that are the same so far
-----------------------------------------------------------------------------------------

/-- A value that follows a nonterminal comes next behind it in some derivation of the start
symbol, since what a nonterminal derives is part of such a derivation.
-/
theorem Trails.exists_derives (reachable : g.Reachable) {name v : Value}
    (trails : g.Trails name v)
    : ∃ front rest,
        g.Derives [g.startSymbol] (front ++ .nonterm name :: rest)
        ∧ (rest = [] ∧ v = .endMark ∨ ∃ t more, rest = .term t :: more ∧ v = .term t) := by
  cases trails with
  | @term n front rest t declared inner =>
      obtain ⟨before, after, outer⟩ := reachable n declared
      -- what a declared nonterminal derives is part of something that the start symbol derives
      have whole : g.Derives _ _ := outer.trans (inner.inside before after)
      refine ⟨before ++ front, .term t :: (rest ++ after), ?_, Or.inr ⟨t, _, rfl, rfl⟩⟩
      simpa using whole
  | last derives => exact ⟨_, [], derives, Or.inl ⟨rfl, rfl⟩⟩

/-- Behind every nonterminal in some leftmost derivation, a word of terminals is derived; if a
given value follows the nonterminal, then one that it begins.
-/
theorem exists_context (reachable : g.Reachable) (productive : g.Productive) {n : Text}
    (declared : n ∈ g.nonterms) (v : Value)
    : ∃ read rest word,
        TerminalWord read
        ∧ g.LeftDerives [g.startSymbol] (read ++ .nonterm (.text n) :: rest)
        ∧ TerminalWord word
        ∧ g.Derives rest word
        ∧ (g.Follows (.text n) v → nextValue word = v) := by
  have behind {read rest : List Symbol}
      (left : g.LeftDerives [g.startSymbol] (read ++ .nonterm (.text n) :: rest))
      : ∀ s ∈ rest, s.Declared g.nonterms g.terms := fun s hs =>
    Derives.declared_of_start left.derives s (by simp [hs])
  by_cases follows : g.Follows (.text n) v
  · obtain ⟨front, back, whole, shape⟩ := (follows_iff_trails.mp follows).exists_derives reachable
    obtain ⟨read, rest, terminal, left, later⟩ := productive.exists_leftDerives whole
    rcases shape with ⟨rfl, rfl⟩ | ⟨t, more, rfl, rfl⟩
    · exact ⟨read, rest, [], terminal, left, by simp [TerminalWord], later, fun _ => rfl⟩
    · obtain ⟨word, terminal', later'⟩ := productive.exists_word_cons (behind left) later
      exact ⟨read, rest, .term t :: word, terminal, left, terminal', later', fun _ => rfl⟩
  · obtain ⟨front, back, whole⟩ := reachable n declared
    obtain ⟨read, rest, terminal, left, _⟩ := productive.exists_leftDerives whole
    obtain ⟨word, terminal', later⟩ := productive.exists_word (behind left)
    exact ⟨read, rest, word, terminal, left, terminal', later, fun found => absurd found follows⟩

/-- A lookahead of a body before a word of terminals begins a word that the body derives with
that word behind it.
-/
theorem exists_word_of_leads (productive : g.Productive) {body rest word : List Symbol}
    (declared : ∀ s ∈ body, s.Declared g.nonterms g.terms) (terminal : TerminalWord word)
    (later : g.Derives rest word) {v : Value}
    (leads : g.first.Leads (fun w => nextValue word = w) body v)
    : ∃ whole, TerminalWord whole ∧ g.Derives (body ++ rest) whole ∧ nextValue whole = v := by
  rcases leads with ⟨proper, found⟩ | ⟨vanishes, next⟩
  · obtain ⟨t, _, rfl, derives⟩ := exists_derives_of_firstOf declared proper found
    obtain ⟨more, terminal', derives'⟩ := productive.exists_word_cons declared derives
    exact ⟨_, terminal'.append terminal, derives'.append later, rfl⟩
  · have vanish := g.explained_first.vanish_of_firstOf declared vanishes
    exact ⟨word, terminal, (derives_nil_iff.mpr vanish).append later, next⟩

/-- If there is a conflict, then its two rules replace a nonterminal in derivations that are the
same so far, and the common lookahead comes next in both.
-/
theorem isLL1_of_nextTerminalDecides (distinct : g.rules.Nodup) (reachable : g.Reachable)
    (productive : g.Productive) (decides : g.NextTerminalDecides)
    : g.isLL1 = true := by
  by_contra conflicting
  obtain ⟨r, hr, s, hs, different, heads, v, left, right⟩ :=
    exists_common_of_conflict distinct (Bool.eq_false_iff.mpr conflicting)
  have here : r.head = s.head := head_eq_of_key hr heads
  obtain ⟨⟨n, declared, head⟩, bodyR⟩ := g.rules_declared r hr
  obtain ⟨_, bodyS⟩ := g.rules_declared s hs
  obtain ⟨read, rest, word, terminal, derives, terminal', later, next⟩ :=
    exists_context reachable productive declared v
  rw [← head] at derives next
  have leads : g.first.Leads (fun w => nextValue word = w) r.body v :=
    SetMap.Leads.mono (selects_iff.mpr left) next
  have leads' : g.first.Leads (fun w => nextValue word = w) s.body v :=
    SetMap.Leads.mono (selects_iff.mpr right) (here ▸ next)
  obtain ⟨x, hx, first, nextX⟩ := exists_word_of_leads productive bodyR terminal' later leads
  obtain ⟨y, hy, second, nextY⟩ := exists_word_of_leads productive bodyS terminal' later leads'
  have ordered {body z : List Symbol} (hz : TerminalWord z) (derives : g.Derives (body ++ rest) z)
      : g.LeftDerives (read ++ body ++ rest) (read ++ z) := by
    rw [List.append_assoc]
    exact (Derives.append (.refl read) derives).leftDerives (terminal.append hz)
  have body := decides r s read rest x y hr hs here terminal hx hy derives (ordered hx first)
    (ordered hy second) ((nextValue_eq_iff hx hy).mp (nextX.trans nextY.symm))
  cases r
  cases s
  exact different (congr (congrArg Rule.mk here) body)

/-- For a grammar without repeated rules whose nonterminals all occur in something that the start
symbol derives and derive words of terminals, no lookahead selects two rules of a nonterminal if
and only if the next terminal decides in its leftmost derivations.
-/
theorem isLL1_iff_nextTerminalDecides (g : Grammar) (distinct : g.rules.Nodup)
    (reachable : g.Reachable) (productive : g.Productive)
    : g.isLL1 = true ↔ g.NextTerminalDecides :=
  ⟨nextTerminalDecides_of_isLL1, isLL1_of_nextTerminalDecides distinct reachable productive⟩

theorem isLL1_iff_nextTerminalDecides_optionalLetters
    : optionalLetters.rules.Nodup
      ∧ optionalLetters.Reachable
      ∧ optionalLetters.Productive
      ∧ optionalLetters.isLL1 = false
      ∧ ¬ optionalLetters.NextTerminalDecides := by
  let optional := Symbol.nonterm (.text (.ofString "A"))
  let letter := Symbol.term (.text (.ofString "b"))
  have opened : optionalLetters.Derives [optionalLetters.startSymbol]
      [optional, letter, optional] := .of_rule List.mem_cons_self
  have erased : optionalLetters.Derives [optional] [] :=
    .of_rule (List.mem_cons_of_mem _ (List.mem_cons_of_mem _ List.mem_cons_self))
  have distinct : optionalLetters.rules.Nodup := by decide
  have reachable : optionalLetters.Reachable := by
    intro n member
    rcases List.mem_cons.mp member with rfl | later
    · exact ⟨[], [], .refl _⟩
    · rw [List.mem_singleton.mp later]
      exact ⟨[], [letter, optional], opened⟩
  have productive : optionalLetters.Productive := by
    intro n member
    rcases List.mem_cons.mp member with rfl | later
    · have single := erased.append (Derives.append (.refl [letter]) erased)
      exact ⟨[letter], by simp [TerminalWord, letter], opened.trans single⟩
    · rw [List.mem_singleton.mp later]
      exact ⟨[], by simp [TerminalWord], erased⟩
  have conflicting : optionalLetters.isLL1 = false := by decide
  refine ⟨distinct, reachable, productive, conflicting, fun decides => ?_⟩
  have ll1 := (optionalLetters.isLL1_iff_nextTerminalDecides distinct reachable productive).mpr
    decides
  cases conflicting.symm.trans ll1

end PredictiveParsing.Grammar
