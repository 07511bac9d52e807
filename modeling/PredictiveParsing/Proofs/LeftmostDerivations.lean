import PredictiveParsing.Derivation

/-! Every derivation can be put in leftmost order, except for the steps behind the first symbol
that does not have to be replaced: these can wait.
-/

namespace PredictiveParsing

/-- Symbols behind a word of terminals stand behind it in the whole, too: either a part before
them consists of terminals, or it ends behind some symbol of theirs.
-/
theorem TerminalWord.or_cons_of_append_eq {front tail : List Symbol}
    (terminal : TerminalWord front) {before rest : List Symbol}
    (whole : before ++ rest = front ++ tail)
    : TerminalWord before
      ∨ ∃ s more, before = front ++ s :: more ∧ tail = s :: more ++ rest := by
  rcases List.append_eq_append_iff.mp whole with ⟨more, rfl, _⟩ | ⟨more, rfl, rfl⟩
  · exact Or.inl fun s hs => terminal s (List.mem_append_left more hs)
  · cases more with
    | nil => exact Or.inl (by simpa using terminal)
    | cons s more => exact Or.inr ⟨s, more, rfl, rfl⟩

/-- A nonterminal stands behind the terminals at the front of a word. -/
theorem TerminalWord.exists_behind {front : List Symbol} (terminal : TerminalWord front)
    {word before after : List Symbol} {name : Value}
    (whole : front ++ word = before ++ .nonterm name :: after)
    : ∃ more, before = front ++ more ∧ word = more ++ .nonterm name :: after := by
  rcases List.append_eq_append_iff.mp whole with ⟨more, rfl, rfl⟩ | ⟨more, rfl, here⟩
  · exact ⟨more, rfl, rfl⟩
  · cases more with
    | nil => exact ⟨[], by simp, here.symm⟩
    | cons s more =>
        obtain ⟨rfl, _⟩ := List.cons_eq_cons.mp here
        obtain ⟨_, none⟩ := terminal (.nonterm name) (by simp)
        cases none

variable {rules : Rule → Prop}

/-- Terminals at the front of a word stay there in whatever the word derives, by induction on the
derivation.
-/
theorem Derives.exists_behind_terminals {front word result : List Symbol}
    (terminal : TerminalWord front) (derives : Derives rules (front ++ word) result)
    : ∃ later, result = front ++ later ∧ Derives rules word later := by
  generalize start : front ++ word = whole at derives
  induction derives generalizing word with
  | refl => exact ⟨word, start.symm, .refl word⟩
  | @step r before after result hr _ ih =>
      obtain ⟨more, rfl, rfl⟩ := terminal.exists_behind start
      have next : front ++ (more ++ r.body ++ after) = front ++ more ++ r.body ++ after := by simp
      obtain ⟨later, rfl, derives⟩ := ih next
      exact ⟨later, rfl, .step hr derives⟩

/-- Terminals in front of a word take no part in what it derives. -/
theorem Derives.cancel_terminals {front word later : List Symbol} (terminal : TerminalWord front)
    (derives : Derives rules (front ++ word) (front ++ later))
    : Derives rules word later := by
  obtain ⟨_, same, derives⟩ := derives.exists_behind_terminals terminal
  exact List.append_cancel_left same ▸ derives

/-- The same symbol stands first in both words, and the steps between the symbols behind it can
wait. Nothing waits in empty words.
-/
inductive Waits (rules : Rule → Prop) : List Symbol → List Symbol → Prop where
  | nil : Waits rules [] []
  | cons (s : Symbol) {early late : List Symbol} (derives : Derives rules early late)
    : Waits rules (s :: early) (s :: late)

theorem Waits.refl (word : List Symbol) : Waits rules word word := by
  cases word with
  | nil => exact .nil
  | cons s word => exact .cons s (.refl word)

/-- Waiting steps add up, as those of the rest do. -/
theorem Waits.trans {a b c : List Symbol} (first : Waits rules a b) (second : Waits rules b c)
    : Waits rules a c := by
  cases first with
  | nil => exact second
  | cons s derives =>
      cases second with
      | cons _ later => exact .cons s (derives.trans later)

/-- A step can be made before a leftmost derivation, or waits behind what the derivation leads
to. By induction on the derivation: a nonterminal to the left of the step is replaced first.
-/
theorem LeftDerives.exists_waits {r : Rule} (hr : rules r) {before after front tail : List Symbol}
    (terminal : TerminalWord front)
    (derives : LeftDerives rules (before ++ r.body ++ after) (front ++ tail))
    : ∃ early,
        LeftDerives rules (before ++ r.symbol :: after) (front ++ early)
        ∧ Waits rules early tail := by
  generalize start : before ++ r.body ++ after = word at derives
  generalize last : front ++ tail = result at derives
  induction derives generalizing before with
  | refl word =>
      subst last
      have whole : before ++ (r.body ++ after) = front ++ tail := by rw [← start]; simp
      rcases terminal.or_cons_of_append_eq whole with all | ⟨s, more, rfl, rfl⟩
      · refine ⟨tail, .step hr all ?_, .refl tail⟩
        rw [start]
        exact .refl _
      · have step : Derives rules (more ++ r.symbol :: after) (more ++ (r.body ++ after)) :=
          (Derives.of_rule hr).inside more after
        -- the step is behind a symbol that stays, so that it waits
        refine ⟨s :: (more ++ r.symbol :: after), ?_, .cons s step⟩
        simpa using LeftDerives.refl (front ++ s :: (more ++ r.symbol :: after))
  | @step q terminals behind result hq hterminals later ih =>
      have whole : before ++ (r.body ++ after) = terminals ++ q.symbol :: behind := by
        rw [← start]; simp
      rcases hterminals.or_cons_of_append_eq whole with all | ⟨s, more, rfl, same⟩
      · refine ⟨tail, .step hr all ?_, .refl tail⟩
        rw [start, last]
        exact .step hq hterminals later
      · -- the derivation goes on to the left of the step, which stays where it is
        obtain ⟨rfl, rfl⟩ := List.cons_eq_cons.mp same
        have next : terminals ++ q.body ++ more ++ r.body ++ after
            = terminals ++ q.body ++ (more ++ (r.body ++ after)) := by simp
        obtain ⟨early, derives, waits⟩ := ih next last
        refine ⟨early, ?_, waits⟩
        have first : LeftDerives rules (terminals ++ q.symbol :: (more ++ r.symbol :: after))
            (front ++ early) := .step hq hterminals (by simpa using derives)
        simpa using first

/-- Whatever is derived behind terminals can be derived in leftmost order, up to steps that can
wait, by induction on the derivation.
-/
theorem Derives.exists_leftDerives {word front tail : List Symbol} (terminal : TerminalWord front)
    (derives : Derives rules word (front ++ tail))
    : ∃ early, LeftDerives rules word (front ++ early) ∧ Waits rules early tail := by
  generalize last : front ++ tail = result at derives
  induction derives with
  | refl word => exact ⟨tail, last ▸ .refl _, .refl tail⟩
  | step hr _ ih =>
      obtain ⟨early, derives, waits⟩ := ih last
      obtain ⟨sooner, derives', waits'⟩ := derives.exists_waits hr terminal
      exact ⟨sooner, derives', waits'.trans waits⟩

/-- A word of terminals is derived in leftmost order, since no step waits behind it. -/
theorem Derives.leftDerives {word result : List Symbol} (terminal : TerminalWord result)
    (derives : Derives rules word result)
    : LeftDerives rules word result := by
  rw [← List.append_nil result] at derives
  obtain ⟨early, left, waits⟩ := derives.exists_leftDerives terminal
  cases waits
  rwa [List.append_nil] at left

/-- A symbol behind terminals is reached in leftmost order, and the steps behind it wait. -/
theorem Derives.exists_leftDerives_cons {word front tail : List Symbol} {s : Symbol}
    (terminal : TerminalWord front) (derives : Derives rules word (front ++ s :: tail))
    : ∃ early, LeftDerives rules word (front ++ s :: early) ∧ Derives rules early tail := by
  obtain ⟨early, left, waits⟩ := derives.exists_leftDerives terminal
  cases waits with
  | cons _ later => exact ⟨_, left, later⟩

end PredictiveParsing
