import PredictiveParsing.Parser.Descent
import PredictiveParsing.Proofs.ParserRuns

/-! The calls of recursive descent: what a call for a symbol does, what the calls for a body do one
after another, and that no answer changes if calls may be nested deeper.
-/

namespace PredictiveParsing

variable {τ α β : Type}

namespace Parser

def Descent.map (f : α → β) : Descent α τ → Descent β τ
  | .built result rest => .built (f result) rest
  | .stuck rest => .stuck rest
  | .failed fault => .failed fault

/-- What a call for a symbol gives, if the symbols of a chosen body are parsed in a given way. -/
inductive Call (p : Parser τ) (parse : List Symbol → List τ → Descent (List (Tree τ)) τ → Prop)
    : Symbol → List τ → Descent (Tree τ) τ → Prop where
  | unmatched {x : Symbol} {tokens : List τ} {fault : Fault}
    (seen : p.lookahead tokens = .error fault)
    : Call p parse x tokens (.failed fault)
  | endMark {tokens : List τ} {focus : Value} (seen : p.lookahead tokens = .ok focus)
    : Call p parse .endMark tokens (.stuck tokens)
  | refused {x : Symbol} {tokens : List τ} {focus : Value}
    (seen : p.lookahead tokens = .ok focus) (refused : p.Refuses x tokens)
    : Call p parse x tokens (.stuck tokens)
  | leaf {name focus : Value} {token : τ} {rest : List τ} (seen : p.matcher token = .ok focus)
    (matched : focus.key = (Value.term name).key)
    : Call p parse (.term name) (token :: rest) (.built (.leaf token) rest)
  | unchoosable {name focus : Value} {tokens : List τ} {fault : Fault}
    (seen : p.lookahead tokens = .ok focus)
    (chosen : p.choose (.nonterm name) focus = .error fault)
    : Call p parse (.nonterm name) tokens (.failed fault)
  | empty {name focus : Value} {tokens : List τ} {r : Rule}
    (seen : p.lookahead tokens = .ok focus)
    (chosen : p.choose (.nonterm name) focus = .ok (some r)) (empty : r.body = [])
    : Call p parse (.nonterm name) tokens (.built (.node (.nonterm name) []) tokens)
  | node {name focus : Value} {tokens : List τ} {r : Rule} {result : Descent (List (Tree τ)) τ}
    (seen : p.lookahead tokens = .ok focus)
    (chosen : p.choose (.nonterm name) focus = .ok (some r)) (nonempty : r.body ≠ [])
    (body : parse r.body tokens result)
    : Call p parse (.nonterm name) tokens (result.map (.node r.lhs))

variable {p : Parser τ} {depth : Nat} {x : Symbol} {tokens : List τ}

def DescendsBody (p : Parser τ) (depth : Nat) (body : List Symbol) (tokens : List τ)
    (result : Descent (List (Tree τ)) τ)
    : Prop :=
  descendBody (p.descend depth) body tokens = some result

/-- What a deeper call gives is one of the things that a call can give. -/
theorem call_of_descend {result : Descent (Tree τ) τ}
    (h : p.descend (depth + 1) x tokens = some result)
    : p.Call (p.DescendsBody depth) x tokens result := by
  rw [descend] at h
  split at h
  · rename_i fault seen
    cases h
    exact .unmatched seen
  · rename_i focus seen
    split at h
    · cases h
      exact .endMark seen
    · rename_i name token rest
      split at h
      · rename_i matched
        cases h
        exact .leaf seen matched
      · rename_i differs
        cases h
        exact .refused seen (.mismatch seen differs)
    · cases h
      exact .refused seen .missing
    · rename_i name
      split at h
      · rename_i fault chosen
        cases h
        exact .unchoosable seen chosen
      · rename_i chosen
        cases h
        exact .refused seen (.blank seen chosen)
      · rename_i r chosen
        split at h
        · rename_i empty
          cases h
          exact .empty seen chosen (List.isEmpty_iff.mp empty)
        · rename_i filled
          have nonempty : r.body ≠ [] := by simpa [Rule.isEmpty] using filled
          obtain ⟨inner, body, h⟩ := Option.bind_eq_some_iff.mp h
          -- only a tree is put below a node; being stuck and failing are handed on
          have result_eq : result = inner.map (.node r.lhs) := by
            cases inner <;> exact (Option.some.inj h).symm
          exact result_eq ▸ .node seen chosen nonempty body

/-- Whatever a call can give, the deeper call gives it. -/
theorem Call.descend_eq {result : Descent (Tree τ) τ}
    (call : p.Call (p.DescendsBody depth) x tokens result)
    : p.descend (depth + 1) x tokens = some result := by
  cases call with
  | unmatched seen => simp [descend, seen]
  | endMark seen => simp [descend, seen]
  | refused seen refused =>
      rw [descend, seen]
      cases refused with
      | leftover => rfl
      | missing => rfl
      | mismatch matched differs =>
          cases matched.symm.trans seen
          simp [differs]
      | blank matched chosen =>
          cases matched.symm.trans seen
          simp [chosen]
  | leaf seen matched => simp [descend, lookahead, seen, matched]
  | unchoosable seen chosen => simp [descend, seen, chosen]
  | empty seen chosen empty => simp [descend, seen, chosen, Rule.isEmpty, empty]
  | @node name focus tokens r inner seen chosen nonempty body =>
      rw [DescendsBody] at body
      cases inner <;>
        simp [descend, seen, chosen, Rule.isEmpty, nonempty, body, Descent.map]

/-- What a call gives is what its case of the rules for calls gives. -/
theorem descend_succ_iff {result : Descent (Tree τ) τ}
    : p.descend (depth + 1) x tokens = some result
      ↔ p.Call (p.DescendsBody depth) x tokens result :=
  ⟨call_of_descend, Call.descend_eq⟩

/-- What the calls for the symbols of a body give: the answer for the first symbol, unless that
is a tree; then the answer for the rest of the body, with this tree in front.
-/
inductive Calls (call : Symbol → List τ → Option (Descent (Tree τ) τ)) (x : Symbol)
    (body : List Symbol) (tokens : List τ) : Descent (List (Tree τ)) τ → Prop where
  | stuck {rest : List τ} (first : call x tokens = some (.stuck rest))
    : Calls call x body tokens (.stuck rest)
  | failed {fault : Fault} (first : call x tokens = some (.failed fault))
    : Calls call x body tokens (.failed fault)
  | built {tree : Tree τ} {rest : List τ} {result : Descent (List (Tree τ)) τ}
    (first : call x tokens = some (.built tree rest))
    (others : descendBody call body rest = some result)
    : Calls call x body tokens (result.map (tree :: ·))

theorem descendBody_cons_iff {call : Symbol → List τ → Option (Descent (Tree τ) τ)}
    {body : List Symbol} {result : Descent (List (Tree τ)) τ}
    : descendBody call (x :: body) tokens = some result ↔ Calls call x body tokens result := by
  constructor
  · intro h
    obtain ⟨first, head, h⟩ := Option.bind_eq_some_iff.mp h
    cases first with
    | stuck rest =>
        cases h
        exact .stuck head
    | failed fault =>
        cases h
        exact .failed head
    | built tree rest =>
        obtain ⟨inner, others, h⟩ := Option.bind_eq_some_iff.mp h
        have result_eq : result = inner.map (tree :: ·) := by
          cases inner <;> exact (Option.some.inj h).symm
        exact result_eq ▸ .built head others
  · intro calls
    cases calls with
    | stuck first => simp [descendBody, first]
    | failed first => simp [descendBody, first]
    | @built tree rest inner first others =>
        cases inner <;> simp [descendBody, first, others, Descent.map]

/-- If calls keep their answers when they may go deeper, so do the calls for a body. By induction on
the body.
-/
theorem descendBody_mono {call deeper : Symbol → List τ → Option (Descent (Tree τ) τ)}
    (mono : ∀ x tokens result, call x tokens = some result → deeper x tokens = some result)
    {body : List Symbol} {result : Descent (List (Tree τ)) τ}
    (h : descendBody call body tokens = some result)
    : descendBody deeper body tokens = some result := by
  induction body generalizing tokens result with
  | nil => exact h
  | cons x body ih =>
      rw [descendBody_cons_iff] at h ⊢
      cases h with
      | stuck first => exact .stuck (mono _ _ _ first)
      | failed first => exact .failed (mono _ _ _ first)
      | built first others => exact .built (mono _ _ _ first) (ih others)

theorem Call.mono {parse other : List Symbol → List τ → Descent (List (Tree τ)) τ → Prop}
    (mono : ∀ body tokens result, parse body tokens result → other body tokens result)
    {result : Descent (Tree τ) τ} (call : p.Call parse x tokens result)
    : p.Call other x tokens result := by
  cases call with
  | unmatched seen => exact .unmatched seen
  | endMark seen => exact .endMark seen
  | refused seen refused => exact .refused seen refused
  | leaf seen matched => exact .leaf seen matched
  | unchoosable seen chosen => exact .unchoosable seen chosen
  | empty seen chosen empty => exact .empty seen chosen empty
  | node seen chosen nonempty body => exact .node seen chosen nonempty (mono _ _ _ body)

/-- An answer stays the same if calls may be nested deeper, by induction on the depth. -/
theorem descend_mono {more : Nat} (deeper : depth ≤ more) {result : Descent (Tree τ) τ}
    (h : p.descend depth x tokens = some result)
    : p.descend more x tokens = some result := by
  induction depth generalizing more x tokens result with
  | zero => cases h
  | succ depth ih =>
      cases more with
      | zero => exact absurd deeper (Nat.not_succ_le_zero depth)
      | succ more =>
          rw [descend_succ_iff] at h ⊢
          have smaller := Nat.le_of_succ_le_succ deeper
          exact h.mono fun _ _ _ body => descendBody_mono (fun _ _ _ => ih smaller) body

end Parser

end PredictiveParsing
