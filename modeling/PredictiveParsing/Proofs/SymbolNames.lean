import Mathlib.Data.Set.List
import PredictiveParsing.Fault.Wording
import PredictiveParsing.Proofs.OverwriteWarnings

/-! The names that symbols may have, told by characters, and values that can be written since all
symbols in them have texts as their names. A problem with such values can be worded.
-/

namespace PredictiveParsing

-----------------------------------------------------------------------------------------
-- Names of nonterminals
-----------------------------------------------------------------------------------------

namespace CodePoint

theorem val_ofChar (c : Char) : (ofChar c).val = c.toNat := rfl

@[simp] theorem ofChar_inj {c d : Char} : ofChar c = ofChar d ↔ c = d := by
  rw [← Char.toNat_inj, Fin.ext_iff]
  rfl

/-- The code points below the surrogates are those of characters. -/
theorem ofChar_ofNat {p : CodePoint} (below : p.val < 0xD800) : ofChar (Char.ofNat p.val) = p := by
  have valid : p.val.isValidChar := Or.inl below
  apply Fin.ext
  rw [val_ofChar, Char.ofNat, dif_pos valid]
  rfl

/-- The letters of ASCII are the alphabetic characters, by the bounds of their numbers. -/
@[simp] theorem isLetter_ofChar (c : Char) : (ofChar c).isLetter = c.isAlpha := by
  have spelled
      : c.isAlpha
        = (decide (0x41 ≤ c.val ∧ c.val ≤ 0x5A)
          || (decide (0x61 ≤ c.val) && decide (c.val ≤ 0x7A))) :=
    rfl
  rw [spelled, Bool.eq_iff_iff]
  simp [isLetter, UInt32.le_iff_toNat_le, ← val_ofChar]

/-- The digits of ASCII are the numeric characters, by the bounds of their numbers. -/
@[simp] theorem isDigit_ofChar (c : Char) : (ofChar c).isDigit = c.isDigit := by
  rw [Bool.eq_iff_iff]
  simp [isDigit, Char.isDigit, UInt32.le_iff_toNat_le, ← val_ofChar]

/-- No letter and no digit, and none of the marks in names, is a surrogate or lies behind them. -/
theorem lt_of_inName {p : CodePoint}
    (inName : p.isLetter = true ∨ p.isDigit = true ∨ p = underscore ∨ p = apostrophe)
    : p.val < 0xD800 := by
  rcases inName with letter | digit | rfl | rfl
  · simp only [isLetter, Bool.or_eq_true, Bool.and_eq_true, decide_eq_true_eq] at letter
    omega
  · simp only [isDigit, Bool.and_eq_true, decide_eq_true_eq] at digit
    omega
  · decide
  · decide

end CodePoint

namespace Text

open CodePoint

/-- A text without code points from the surrogates on is one of characters. -/
theorem mem_range_ofChar {t : Text} (below : ∀ p ∈ t, p.val < 0xD800)
    : t ∈ Set.range (List.map ofChar) := by
  rw [Set.range_list_map]
  exact fun p member => ⟨Char.ofNat p.val, ofChar_ofNat (below p member)⟩

/-- The names of nonterminals have no surrogates, since they are all ASCII. -/
theorem lt_of_isNontermName {t : Text} (named : t.isNontermName = true)
    : ∀ p ∈ t, p.val < 0xD800 := by
  cases t with
  | nil => simp
  | cons p t =>
      simp only [isNontermName, Bool.and_eq_true, Bool.or_eq_true, List.all_eq_true, beq_iff_eq,
        or_assoc] at named
      obtain ⟨first, later⟩ := named
      have start : p.isLetter = true ∨ p.isDigit = true ∨ p = underscore ∨ p = apostrophe :=
        first.imp_right fun mark => Or.inr (Or.inl mark)
      exact List.forall_mem_cons.mpr
        ⟨lt_of_inName start, fun q member => lt_of_inName (later q member)⟩

/-- A name that a nonterminal may have is, as a whole, a letter or an underscore and then letters,
digits, underscores and apostrophes, where letters and digits are those of ASCII.
-/
theorem isNontermName_iff {t : Text}
    : t.isNontermName = true
      ↔ ∃ c cs,
          t = (c :: cs).map ofChar
          ∧ (c.isAlpha = true ∨ c = '_')
          ∧ ∀ d ∈ cs, d.isAlphanum = true ∨ d = '_' ∨ d = '\x27' := by
  have spelled (c : Char) (cs : List Char)
      : isNontermName ((c :: cs).map ofChar) = true
        ↔ (c.isAlpha = true ∨ c = '_') ∧ ∀ d ∈ cs, d.isAlphanum = true ∨ d = '_' ∨ d = '\x27' := by
    simp [isNontermName, underscore, apostrophe, Char.isAlphanum, or_assoc]
  constructor
  · intro named
    obtain ⟨chars, rfl⟩ := mem_range_ofChar (lt_of_isNontermName named)
    cases chars with
    | nil => cases named
    | cons c cs => exact ⟨c, cs, rfl, (spelled c cs).mp named⟩
  · rintro ⟨c, cs, rfl, shape⟩
    exact (spelled c cs).mpr shape

/-- A name that a terminal may have is not empty, and free of surrogates. -/
theorem isTermName_iff {t : Text}
    : t.isTermName = true ↔ t ≠ [] ∧ ∀ p ∈ t, p.val < 0xD800 ∨ 0xDFFF < p.val := by
  simp [isTermName, isSurrogate, imp_iff_not_or]

end Text

-----------------------------------------------------------------------------------------
-- Values that can be written
-----------------------------------------------------------------------------------------

namespace Value

mutual

/-- The nonterminals and terminals in a value, and the nonterminals of the rules there, have texts
as their names.
-/
def isTextNamed : Value → Bool
  | .nonterm (.text _) | .term (.text _) => true
  | .nonterm _ | .term _ => false
  | .rule (.text _) body => allTextNamed body
  | .rule _ _ => false
  | .token sort content => sort.isTextNamed && content.isTextNamed
  | .list items | .tuple items => allTextNamed items
  | .text _ | .int _ | .bool _ | .null | .epsilon | .endMark => true

def allTextNamed : List Value → Bool
  | [] => true
  | item :: items => item.isTextNamed && allTextNamed items

end

/-- All values of a list have texts as names exactly if each of them does, by induction. -/
theorem allTextNamed_iff {items : List Value}
    : allTextNamed items = true ↔ ∀ item ∈ items, item.isTextNamed = true := by
  induction items with
  | nil => simp [allTextNamed]
  | cons item items ih => simp [allTextNamed, ih]

mutual

/-- The nonterminals in a value, and those of the rules there, have texts as their names. Terminals
may have any names that can be written.
-/
def isWritable : Value → Bool
  | .nonterm (.text _) => true
  | .nonterm _ => false
  | .term name => name.isWritable
  | .rule (.text _) body => allWritable body
  | .rule _ _ => false
  | .token sort content => sort.isWritable && content.isWritable
  | .list items | .tuple items => allWritable items
  | .text _ | .int _ | .bool _ | .null | .epsilon | .endMark => true

def allWritable : List Value → Bool
  | [] => true
  | item :: items => item.isWritable && allWritable items

end

/-- The values of a list can be written exactly if each of them can, by induction. -/
theorem allWritable_iff {items : List Value}
    : allWritable items = true ↔ ∀ item ∈ items, item.isWritable = true := by
  induction items with
  | nil => simp [allWritable]
  | cons item items ih => simp [allWritable, ih]

mutual

/-- Where all names are texts, everything can be written, by induction. -/
theorem isWritable_of_isTextNamed : ∀ {v : Value}, v.isTextNamed = true → v.isWritable = true
  | .nonterm (.text _), _ | .term (.text _), _ | .text _, _ | .int _, _ | .bool _, _ | .null, _
  | .epsilon, _ | .endMark, _ => rfl
  | .token sort content, named => by
      rw [isTextNamed, Bool.and_eq_true] at named
      rw [isWritable, isWritable_of_isTextNamed named.1, isWritable_of_isTextNamed named.2]
      rfl
  | .list _, named | .tuple _, named => allWritable_of_allTextNamed named
  | .rule (.text _) _, named => allWritable_of_allTextNamed named

theorem allWritable_of_allTextNamed
    : ∀ {items : List Value}, allTextNamed items = true → allWritable items = true
  | [], _ => rfl
  | item :: items, named => by
      rw [allTextNamed, Bool.and_eq_true] at named
      rw [allWritable, isWritable_of_isTextNamed named.1, allWritable_of_allTextNamed named.2]
      rfl

end

end Value

/-- A value cannot be written because the name of a nonterminal is not a text. -/
def Fault.isOfWriting : Fault → Bool
  | .nameNotText _ | .plainNotText _ | .headNotText _ => true
  | _ => false

/-- What is to be written is written if a condition holds, and otherwise some value cannot be. -/
inductive Writes {α : Type} : Except Fault α → Bool → Prop where
  | ok (a : α) : Writes (.ok a) true
  | error {fault : Fault} (cause : fault.isOfWriting = true) : Writes (.error fault) false

namespace Writes

variable {α β : Type} {x : Except Fault α} {p q : Bool}

theorem exists_ok (writes : Writes x true) : ∃ a, x = .ok a := by
  cases writes with
  | ok a => exact ⟨a, rfl⟩

/-- Two things are written one after another if both can be. -/
theorem bind {f : α → Except Fault β} (first : Writes x p) (later : ∀ a, Writes (f a) q)
    : Writes (x >>= f) (p && q) := by
  cases first with
  | ok a => exact later a
  | error cause => exact .error cause

theorem map {h : α → β} (first : Writes x p) : Writes (x >>= fun a => .ok (h a)) p := by
  have both := first.bind fun a => .ok (h a)
  rwa [Bool.and_true] at both

end Writes

namespace Value

/-- What stands for a name inside another text can be written if the name can. -/
theorem writes_plainFrom {name : Value} {shown : Except Fault Text}
    (writes : Writes shown name.isWritable)
    : Writes (name.plainFrom shown) name.isWritable := by
  cases name with
  | text content => exact .ok content
  | nonterm inner =>
      cases inner with
      | text content => exact .ok content
      | _ => exact .error rfl
  | _ => exact writes

mutual

/-- A value is written exactly if it can be, by recursion on it. -/
theorem writes_display : ∀ v : Value, Writes v.display v.isWritable
  | .text _ | .int _ | .bool _ | .null | .epsilon | .endMark => .ok _
  | .nonterm name => by
      cases name with
      | text => exact .ok _
      | _ => exact .error rfl
  | .term name => by
      rw [display, isWritable]
      exact (writes_plainFrom (writes_display name)).map
  | .token sort content => by
      rw [display, isWritable]
      exact (writes_display sort).bind fun _ => (writes_display content).map
  | .list items => by
      rw [display, isWritable]
      exact (writes_displayAll items).map
  | .tuple [] => .ok _
  | .tuple [item] => by
      rw [display, isWritable, allWritable, allWritable, Bool.and_true]
      exact (writes_display item).map
  | .tuple (item :: next :: items) => by
      rw [display, isWritable]
      · exact (writes_displayAll (item :: next :: items)).map
      · simp
  | .rule head body => by
      cases head with
      | text =>
          cases body with
          | nil => exact .ok _
          | cons item items =>
              simp only [display, isWritable]
              exact (writes_displayAll (item :: items)).map
      | _ => exact .error rfl

theorem writes_displayAll : ∀ items : List Value, Writes (displayAll items) (allWritable items)
  | [] => .ok []
  | item :: items => by
      rw [displayAll, allWritable]
      exact (writes_display item).bind fun _ => (writes_displayAll items).map

end

/-- A value can be written if all symbols in it have texts as their names. -/
theorem exists_display_of_isTextNamed {v : Value} (named : v.isTextNamed = true)
    : ∃ shown, v.display = .ok shown := by
  have writes := v.writes_display
  rw [isWritable_of_isTextNamed named] at writes
  exact writes.exists_ok

end Value

namespace Problem

def values : Problem → List Value
  | .headNotNonterm lhs | .mixedEpsilon lhs | .undeclaredHead lhs => [lhs]
  | .bodyNotSymbol lhs item => [lhs, item]
  | .malformedNonterm value | .malformedTerm value | .notRule value => [value]
  | .undeclaredSymbol symbol rule => [symbol, rule]
  | .undeclaredStart start => [start]

theorem refuse_ne_ok {α : Type} {problem : Problem} {a : α} : problem.refuse ≠ .ok a := by
  unfold refuse
  split <;> simp

theorem refuse_bind {α β : Type} {problem : Problem} {f : α → Except Fault β}
    : (problem.refuse >>= f) = problem.refuse := by
  unfold refuse
  split <;> rfl

/-- The fault with which a problem is reported: the problem itself, if it can be worded. -/
def fault (problem : Problem) : Fault :=
  match problem.message with
  | .ok _ => .invalid problem
  | .error fault => fault

/-- A refusal fails, with the problem or with what keeps it from being worded. -/
theorem refuse_eq_error {α : Type} (problem : Problem)
    : (problem.refuse : Except Fault α) = .error problem.fault := by
  rw [refuse, fault]
  cases problem.message <;> rfl

/-- A problem is worded exactly if the values that it is about can be written. -/
theorem writes_message (problem : Problem)
    : Writes problem.message (Value.allWritable problem.values) := by
  cases problem with
  | headNotNonterm v | mixedEpsilon v | undeclaredHead v | malformedNonterm v | malformedTerm v
  | notRule v | undeclaredStart v =>
      rw [values, Value.allWritable, Value.allWritable, Bool.and_true]
      exact v.writes_display.map
  | bodyNotSymbol v w | undeclaredSymbol v w =>
      rw [values, Value.allWritable, Value.allWritable, Value.allWritable, Bool.and_true]
      exact v.writes_display.bind fun _ => w.writes_display.map

/-- A problem about values that can be written is reported as such. -/
theorem fault_of_writable {problem : Problem} (writable : ∀ v ∈ problem.values, v.isWritable = true)
    : problem.fault = .invalid problem := by
  have writes := problem.writes_message
  rw [Value.allWritable_iff.mpr writable] at writes
  rw [fault]
  generalize problem.message = message at writes ⊢
  cases writes
  rfl

/-- A problem about a value that cannot be written is not reported: writing it is the fault. -/
theorem isOfWriting_fault {problem : Problem} {v : Value} (about : v ∈ problem.values)
    (unwritable : v.isWritable = false)
    : problem.fault.isOfWriting = true := by
  have some : Value.allWritable problem.values = false := Bool.eq_false_iff.mpr fun all => by
    simp [Value.allWritable_iff.mp all v about] at unwritable
  have writes := problem.writes_message
  rw [some] at writes
  rw [fault]
  generalize problem.message = message at writes ⊢
  cases writes with
  | error cause => exact cause

/-- A problem is reported as such if all symbols in its values have texts as their names. -/
theorem fault_eq {problem : Problem} (named : ∀ v ∈ problem.values, v.isTextNamed = true)
    : problem.fault = .invalid problem :=
  fault_of_writable fun v member => Value.isWritable_of_isTextNamed (named v member)

end Problem

end PredictiveParsing
