import PredictiveParsing.Proofs.ParseTermination
import PredictiveParsing.Proofs.SharedBeginnings
import PredictiveParsing.Proofs.UsefulSymbols

/-! Without conflicts, and if every nonterminal derives a word, a parse is rejected at the first
token with which the tokens before it begin no sentence.
-/

namespace PredictiveParsing

variable {τ : Type} {g : Grammar} {terminalOf : τ → Value}

namespace Grammar

/-- The values of a sentence are tokens for a parser of their own, since all of them can be
looked up.
-/
theorem Sentence.exists_tokens {values : List Value} (sentence : g.Sentence values)
    : ∃ tokens : List {v : Value // v.hashable = true}, tokens.map Subtype.val = values := by
  obtain ⟨word, ⟨_, derives⟩, rfl⟩ := sentence
  have declared := Derives.declared_of_start derives
  have hashable : ∀ v ∈ word.map Symbol.toValue, v.hashable = true :=
    List.forall_mem_map.mpr fun s hs => (declared s hs).hashable
  exact ⟨_, List.attachWith_map_subtype_val hashable⟩

end Grammar

namespace Parser

-----------------------------------------------------------------------------------------
-- What was read begins a sentence if every nonterminal derives a word
-----------------------------------------------------------------------------------------

/-- The symbol for whose tree the frames wait is the start symbol or stands in a body. -/
theorem Context.declared {Fits : Symbol → Tree τ → Prop} {frames : List (Frame τ)}
    {x : Symbol} {below : List Symbol} {read : List τ}
    (context : (ofTotal g terminalOf).Context Fits frames x below read)
    : x.Declared g.nonterms g.terms := by
  cases context with
  | root => exact g.start_isDeclared
  | frame _ stored body _ =>
      obtain ⟨member, _⟩ := rule_of_stored stored
      exact (g.rules_declared _ member).2 x (by simp [body])

/-- The start symbol derives the tokens that were read, followed by the stack without the end
mark. By induction on the path: the rule of a frame replaces the nonterminal that its tree
stands for, and the trees of the frame derive their tokens.
-/
theorem Context.derives {frames : List (Frame τ)} {x : Symbol} {below : List Symbol}
    {read : List τ}
    (context : (ofTotal g terminalOf).Context (g.Valid terminalOf) frames x below read)
    : ∃ word behind,
        TerminalWord word
        ∧ word.map Symbol.toValue = read.map terminalOf
        ∧ below = behind ++ [.endMark]
        ∧ (∀ s ∈ behind, s.Declared g.nonterms g.terms)
        ∧ g.Derives [g.startSymbol] (word ++ x :: behind) := by
  induction context with
  | root => exact ⟨[], [], by simp [TerminalWord], rfl, rfl, by simp, .refl _⟩
  | @frame name r children built rest x frames below read outer stored body trees ih =>
      obtain ⟨word, behind, terminal, spelled, rfl, declared, derives⟩ := ih
      obtain ⟨member, row⟩ := rule_of_stored stored
      have symbols := (g.rules_declared r member).2
      rw [body] at symbols
      obtain ⟨more, terminal', spelled', derives'⟩ := Grammar.derives_of_validAll
        (Tree.validAll_of_forall₂ trees) fun s hs => symbols s (List.mem_append_left _ hs)
      refine ⟨word ++ more, rest ++ behind, terminal.append terminal', ?_, ?_, ?_, ?_⟩
      · simp [spelled, spelled']
      · simp
      · intro s hs
        rcases List.mem_append.mp hs with inner | later
        · exact symbols s (by simp [inner])
        · exact declared s later
      · -- first the nonterminal of the frame is replaced, then the symbols that have their trees
        have opened : g.Derives (word ++ .nonterm name :: behind)
            (word ++ r.body ++ behind) := by
          rw [← row]
          exact .step member (.refl _)
        have grown := Derives.context derives' word (x :: rest ++ behind)
        rw [body] at opened
        simp only [List.append_assoc, List.cons_append] at opened grown ⊢
        exact derives.trans (opened.trans grown)

/-- The tokens that were read begin a sentence, since what is on the stack derives a word. -/
theorem Building.sentence (productive : g.Productive) {tokens : List τ} {s : State τ}
    (building : (ofTotal g terminalOf).Building (g.Valid terminalOf) tokens s)
    : ∃ read values,
        tokens = read ++ s.rest ∧ g.Sentence (read.map terminalOf ++ values) := by
  cases building with
  | @complete tree fits frames stack done index input =>
      refine ⟨tree.frontier, [], input, ?_⟩
      rw [List.append_nil]
      exact Grammar.sentence_iff.mpr ⟨tree, fits, rfl⟩
  | @waiting x below read context stack done index input =>
      obtain ⟨word, behind, terminal, spelled, _, declared, derives⟩ := context.derives
      obtain ⟨more, terminal', derives'⟩ := productive.exists_word
        (List.forall_mem_cons.mpr ⟨context.declared, declared⟩)
      refine ⟨read, more.map Symbol.toValue, input, word ++ more, ?_, by simp [spelled]⟩
      exact ⟨terminal.append terminal', derives.trans ((Derives.refl word).append derives')⟩

-----------------------------------------------------------------------------------------
-- A sentence that goes on from a refused symbol would be rejected
-----------------------------------------------------------------------------------------

theorem forall₂_of_map_eq {α β γ : Type} {f : α → γ} {h : β → γ} {as : List α} {bs : List β}
    (same : bs.map h = as.map f)
    : List.Forall₂ (fun a b => h b = f a) as bs := by
  rw [← List.forall₂_eq_eq_eq, List.forall₂_map_left_iff, List.forall₂_map_right_iff] at same
  exact same.flip

/-- No sentence goes on from where a symbol is refused: its parse would get to the same place,
refuse the same symbol there, and yet accept.
-/
theorem not_sentence_of_refuses (ll1 : g.isLL1 = true) {tokens read : List τ} {s : State τ}
    (reaches : (ofTotal g terminalOf).Reaches (.initial g.startSymbol tokens) s)
    (input : tokens = read ++ s.rest) {x : Symbol} {below : List Symbol}
    (stack : s.stack = x :: below) (refused : (ofTotal g terminalOf).Refuses x s.rest)
    {values : List Value} (next : values.head? = s.rest.head?.map terminalOf)
    : ¬ g.Sentence (read.map terminalOf ++ values) := by
  intro sentence
  let other := ofTotal g (Subtype.val : {v : Value // v.hashable = true} → Value)
  obtain ⟨all, spelled⟩ := sentence.exists_tokens
  obtain ⟨seen, rest, rfl, front, back⟩ := List.map_eq_append_iff.mp spelled
  have same : List.Forall₂
      (fun token v => other.matcher v = (ofTotal g terminalOf).matcher token) read seen :=
    (forall₂_of_map_eq front).imp fun _ _ equal => congrArg Except.ok equal
  have ahead : rest.head?.map other.matcher
      = s.rest.head?.map (ofTotal g terminalOf).matcher := by
    rw [← back, List.head?_map] at next
    have seen := congrArg (Option.map (Except.ok : Value → Except Fault Value)) next
    rwa [Option.map_map, Option.map_map] at seen
  have tables : other.table = (ofTotal g terminalOf).table := rfl
  obtain ⟨t, reaches', abreast, left⟩ := reaches.alike tables input
    (u := .initial g.startSymbol (seen ++ rest)) ⟨rfl, rfl, rfl⟩ rfl same ahead
  rw [← spelled] at sentence
  obtain ⟨tree, calls, accepted⟩ := accepts_of_sentence ll1 Subtype.property sentence
  obtain ⟨result, ends⟩ := exists_ends ll1 Subtype.property t
  cases Ends.unique accepted (ends.of_reaches reaches')
  rw [← left] at ahead
  exact (refused.alike tables ahead).not_accepts (abreast.stack.trans stack) ends

/-- Without conflicts, and if every nonterminal derives a word, a parse is rejected where the
tokens go wrong: the tokens before the rest begin a sentence, and they are none themselves if
nothing is left, and begin none with the next token otherwise.
-/
theorem rejected_at_error (ll1 : g.isLL1 = true) (productive : g.Productive)
    {tokens remaining : List τ} {index : Nat} {expected : Symbol} {calls : Nat}
    (rejected : (ofGrammar g fun token => .ok (terminalOf token)).Returns tokens
      ⟨.rejected index expected remaining, calls⟩)
    : ∃ read,
        tokens = read ++ remaining
        ∧ (∃ values, g.Sentence values ∧ read.map terminalOf <+: values)
        ∧ (remaining = [] ∧ ¬ g.Sentence (tokens.map terminalOf)
          ∨ ∃ token rest,
              remaining = token :: rest
              ∧ ¬ ∃ values,
                  g.Sentence values
                  ∧ read.map terminalOf ++ [terminalOf token] <+: values) := by
  obtain ⟨s, reaches, halts, _⟩ := Ends.exists_halts rejected
  have building := Building.of_reaches (builds_ofTotal g terminalOf) reaches
  obtain ⟨read, values, input, sentence⟩ := building.sentence productive
  cases halts with
  | reject stack refused =>
      refine ⟨read, input, ⟨_, sentence, List.prefix_append _ _⟩, ?_⟩
      cases left : s.rest with
      | nil =>
          refine Or.inl ⟨rfl, fun whole => ?_⟩
          rw [input, List.map_append] at whole
          exact not_sentence_of_refuses ll1 reaches input stack refused (by simp [left]) whole
      | cons token rest =>
          refine Or.inr ⟨token, rest, rfl, ?_⟩
          rintro ⟨_, longer, more, rfl⟩
          rw [List.append_assoc] at longer
          exact not_sentence_of_refuses ll1 reaches input stack refused (by simp [left])
            longer

theorem rejected_at_error_brackets
    : Grammar.brackets.isLL1 = true
      ∧ Grammar.brackets.Productive
      ∧ (ofTotal .brackets bracketOf).Returns [true, false, false]
        ⟨.rejected 2 .endMark [false], 6⟩
      ∧ (∃ values,
        Grammar.brackets.Sentence values ∧ [true, false].map bracketOf <+: values)
      ∧ ¬ ∃ values,
          Grammar.brackets.Sentence values ∧ [true, false, false].map bracketOf <+: values := by
  have ll1 : Grammar.brackets.isLL1 = true := by decide
  have productive : Grammar.brackets.Productive := by
    intro n member
    rw [List.mem_singleton.mp member]
    exact ⟨[], by simp [TerminalWord], .of_rule (List.mem_cons_of_mem _ List.mem_cons_self)⟩
  have rejected : (ofTotal .brackets bracketOf).Returns [true, false, false]
      ⟨.rejected 2 .endMark [false], 6⟩ := ⟨20, rfl⟩
  refine ⟨ll1, productive, rejected, ?_⟩
  obtain ⟨read, input, begins, ⟨none, _⟩ | ⟨token, rest, next, wrong⟩⟩ :=
    rejected_at_error ll1 productive rejected
  · cases none
  · have split : [true, false] ++ [false] = read ++ [false] := input
    cases List.append_cancel_right split
    cases next
    exact ⟨begins, wrong⟩

end Parser

end PredictiveParsing
