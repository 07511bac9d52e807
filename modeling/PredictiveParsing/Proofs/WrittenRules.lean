import PredictiveParsing.Proofs.ReadableTexts

/-! Symbols and rules are told by how they are written. A nonterminal begins as a name does and a
terminal with a quotation mark, so that no two symbols are written alike. In a rule, a name ends at
the space behind it; a terminal ends at its other quotation mark, as long as its name has none.
-/

namespace PredictiveParsing

open CodePoint Text

-----------------------------------------------------------------------------------------
-- Symbols
-----------------------------------------------------------------------------------------

namespace Value

/-- A nonterminal with a name that it may have in a grammar, a terminal with any text as its name,
or the mark of the empty word or of the end.
-/
inductive Legible : Value → Prop where
  | nonterm {n : Text} (named : n.isNontermName = true) : Legible (.nonterm (.text n))
  | term (t : Text) : Legible (.term (.text t))
  | epsilon : Legible .epsilon
  | endMark : Legible .endMark

def FreeOfQuotes (v : Value) : Prop :=
  ∀ t : Text, v = .term (.text t) → quotationMark ∉ t

def form (v : Value) : Text :=
  written v.display

/-- Values that can each be written are written one by one, by induction. -/
theorem displayAll_eq {items : List Value}
    (each : ∀ item ∈ items, ∃ shown, item.display = .ok shown)
    : displayAll items = .ok (items.map form) := by
  induction items with
  | nil => rfl
  | cons item items ih =>
      obtain ⟨first, later⟩ := List.forall_mem_cons.mp each
      rw [displayAll, eq_ok_written first, ih later]
      rfl

namespace Legible

variable {v w : Value}

theorem display_eq (legible : v.Legible) : v.display = .ok v.form := by
  cases legible <;> rfl

/-- The kind of the symbols whose forms begin with a code point, if there are any. -/
def kindOfFirst? (c : CodePoint) : Option Kind :=
  if beginsName c then some .nonterm
  else if c = quotationMark then some .term
  else if c = ofChar 'ε' then some .epsilon
  else if c = ofChar '$' then some .endMark
  else none

/-- The first code point of a written symbol tells its kind. -/
theorem exists_form_cons (legible : v.Legible)
    : ∃ c t, v.form = c :: t ∧ kindOfFirst? c = some v.kind := by
  cases legible with
  | @nonterm n named =>
      obtain ⟨c, t, rfl, first, _⟩ := exists_cons_of_isNontermName named
      exact ⟨c, t, rfl, if_pos first⟩
  | term t => exact ⟨quotationMark, t ++ [quotationMark], rfl, rfl⟩
  | epsilon => exact ⟨ofChar 'ε', [], rfl, rfl⟩
  | endMark => exact ⟨ofChar '$', [], rfl, rfl⟩

/-- A code point with which no symbol's form begins. -/
theorem form_append_ne (legible : v.Legible) {c : CodePoint} (none : kindOfFirst? c = none)
    (x y : Text)
    : v.form ++ x ≠ c :: y := by
  obtain ⟨d, t, form, kind⟩ := legible.exists_form_cons
  rw [form]
  intro same
  rw [(List.cons.inj same).1, none] at kind
  cases kind

/-- Symbols that are written alike are of one kind, whatever stands behind them. -/
theorem kind_eq_of_form (hv : v.Legible) (hw : w.Legible) {x y : Text}
    (same : v.form ++ x = w.form ++ y)
    : v.kind = w.kind := by
  obtain ⟨c, _, left, kind⟩ := hv.exists_form_cons
  obtain ⟨d, _, right, kind'⟩ := hw.exists_form_cons
  rw [left, right] at same
  rw [(List.cons.inj same).1] at kind
  exact Option.some.inj (kind.symm.trans kind')

theorem form_term (t : Text) : form (.term (.text t)) = quotationMark :: t ++ [quotationMark] := rfl

/-- No two symbols are written alike. -/
theorem form_inj (hv : v.Legible) (hw : w.Legible) (same : v.form = w.form) : v = w := by
  have kinds := kind_eq_of_form hv hw (congrArg (· ++ []) same)
  cases hv with
  | @nonterm n _ =>
      cases hw with
      | @nonterm m _ =>
          have names : n = m := same
          rw [names]
      | _ => cases kinds
  | term t =>
      cases hw with
      | term s =>
          rw [form_term, form_term] at same
          rw [(List.cons.inj (List.append_cancel_right same)).2]
      | _ => cases kinds
  | epsilon =>
      cases hw with
      | epsilon => rfl
      | _ => cases kinds
  | endMark =>
      cases hw with
      | endMark => rfl
      | _ => cases kinds

/-- Symbols are told by their forms where code points stand behind these that are in no name, as
long as the names of terminals have no quotation marks.
-/
theorem form_append_inj (hv : v.Legible) (hw : w.Legible) (fv : v.FreeOfQuotes)
    (fw : w.FreeOfQuotes) {c d : CodePoint} (hc : inName c = false) (hd : inName d = false)
    {x y : Text} (same : v.form ++ c :: x = w.form ++ d :: y)
    : v = w ∧ c = d ∧ x = y := by
  have kinds := kind_eq_of_form hv hw same
  cases hv with
  | nonterm named =>
      cases hw with
      | nonterm named' =>
          obtain ⟨rfl, rest⟩ :=
            append_cons_inj inName (forall_inName named) (forall_inName named') hc hd same
          exact ⟨rfl, rest⟩
      | _ => cases kinds
  | term t =>
      cases hw with
      | term s =>
          simp only [form_term, List.cons_append, List.append_assoc, List.nil_append] at same
          -- a name without quotation marks goes as far as the first one
          have unmarked {name : Text} (free : quotationMark ∉ name)
              : ∀ e ∈ name, (e != quotationMark) = true :=
            fun e he => bne_iff_ne.mpr (ne_of_mem_of_not_mem he free)
          obtain ⟨rfl, _, rest⟩ := append_cons_inj (· != quotationMark) (unmarked (fv t rfl))
            (unmarked (fw s rfl)) (by decide) (by decide) (List.cons.inj same).2
          exact ⟨rfl, List.cons.inj rest⟩
      | _ => cases kinds
  | epsilon =>
      cases hw with
      | epsilon => exact ⟨rfl, List.cons.inj (List.cons.inj same).2⟩
      | _ => cases kinds
  | endMark =>
      cases hw with
      | endMark => exact ⟨rfl, List.cons.inj (List.cons.inj same).2⟩
      | _ => cases kinds

end Legible

end Value

-----------------------------------------------------------------------------------------
-- Rules
-----------------------------------------------------------------------------------------

namespace Rule

/-- All symbols of a rule are told by how they are written. -/
structure Legible (r : Rule) : Prop where
  head : ∃ n : Text, r.head = .text n ∧ n.isNontermName = true
  rhs : ∀ v ∈ r.rhs, v.Legible

def FreeOfQuotes (r : Rule) : Prop :=
  ∀ v ∈ r.rhs, v.FreeOfQuotes

def form (r : Rule) : Text :=
  written r.display

variable {r s : Rule}

/-- A rule is told by its nonterminal and its right-hand side, as it is written. -/
theorem eq_of_rhs (head : r.head = s.head) (rhs : r.rhs = s.rhs) : r = s := by
  obtain ⟨n, body⟩ := r
  obtain ⟨m, other⟩ := s
  have marked (t : Symbol) (rest : List Symbol)
      : t.toValue :: rest.map Symbol.toValue ≠ [.epsilon] := by
    cases t <;> simp [Symbol.toValue]
  have bodies : body = other := by
    cases body with
    | nil =>
        cases other with
        | nil => rfl
        | cons t rest => exact absurd rhs.symm (marked t rest)
    | cons t rest =>
        cases other with
        | nil => exact absurd rhs (marked t rest)
        | cons t' rest' =>
            exact List.map_injective_iff.mpr (fun _ _ => Symbol.toValue_injective) rhs
  rw [bodies, show n = m from head]

/-- A rule is written as its nonterminal, the sign of a rule, and its symbols with spaces between
them.
-/
theorem Legible.display_eq (legible : r.Legible) {n : Text} (head : r.head = .text n)
    : r.display = .ok (n ++ ofString " := " ++ join [ofChar ' '] (r.rhs.map Value.form)) := by
  have shown := Value.displayAll_eq fun item (member : item ∈ r.rhs) =>
    ⟨_, (legible.rhs item member).display_eq⟩
  obtain ⟨m, body⟩ := r
  obtain rfl : m = .text n := head
  cases body with
  | nil =>
      show Except.ok (n ++ ofString " := ε") = Except.ok (n ++ ofString " := " ++ [ofChar 'ε'])
      rw [List.append_assoc]
      rfl
  | cons t rest =>
      let items := t.toValue :: rest.map Symbol.toValue
      have word : Value.displayAll items = .ok (items.map Value.form) := shown
      have marks : ofString " := " = ofChar ' ' :: ofString ":=" ++ [ofChar ' '] := rfl
      show Value.display (.rule (.text n) items)
        = .ok (n ++ ofString " := " ++ join [ofChar ' '] (items.map Value.form))
      rw [marks]
      simp only [items, Value.display] at word ⊢
      rw [word]
      simp [join, bind, Except.bind]

theorem Legible.exists_display (legible : r.Legible) : ∃ shown, r.display = .ok shown := by
  obtain ⟨n, head, _⟩ := legible.head
  exact ⟨_, legible.display_eq head⟩

/-- Rules are told by their forms if the names of their terminals have no quotation marks. The line
ends that are put behind them here are in no form.
-/
theorem Legible.form_inj (hr : r.Legible) (hs : s.Legible) (fr : r.FreeOfQuotes)
    (fs : s.FreeOfQuotes) (same : r.form = s.form)
    : r = s := by
  obtain ⟨n, head, named⟩ := hr.head
  obtain ⟨m, head', named'⟩ := hs.head
  have texts : n ++ ofChar ' ' :: (ofString ":= " ++ (join [ofChar ' '] (r.rhs.map Value.form)
        ++ [ofChar '\n']))
      = m ++ ofChar ' ' :: (ofString ":= " ++ (join [ofChar ' '] (s.rhs.map Value.form)
        ++ [ofChar '\n'])) := by
    have ended := congrArg (· ++ [ofChar '\n']) same
    rw [form, form, hr.display_eq head, hs.display_eq head'] at ended
    simp only [written, List.append_assoc] at ended
    exact ended
  obtain ⟨rfl, _, rest⟩ :=
    append_cons_inj inName (forall_inName named) (forall_inName named') rfl rfl texts
  have apart : ∀ v ∈ r.rhs, ∀ w ∈ s.rhs, ToldApart Value.form (ofChar ' ') (ofChar '\n') v w := by
    intro v hv w hw c d x y hc hd equal
    have outside (e : CodePoint) (he : e ∈ [ofChar ' ', ofChar '\n']) : inName e = false := by
      rcases List.mem_pair.mp he with rfl | rfl <;> rfl
    exact (hr.rhs v hv).form_append_inj (hs.rhs w hw) (fr v hv) (fs w hw) (outside c hc)
      (outside d hd) equal
  obtain ⟨sides, _⟩ := join_append_inj Value.form (ofChar ' ') (ofChar '\n') (by decide) apart
    (fun v hv => (hr.rhs v hv).form_append_ne rfl) (fun w hw => (hs.rhs w hw).form_append_ne rfl)
    (List.append_cancel_left rest)
  exact eq_of_rhs (head.trans head'.symm) sides

end Rule

end PredictiveParsing
