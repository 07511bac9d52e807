import PredictiveParsing.Text

/-! The values that stand for symbols, names and tokens, and when two of them count as one.
A value can be looked up in a set or a map unless it holds a list; a truth value counts as
the number 0 or 1 wherever values are compared.
-/

namespace PredictiveParsing

/-- What a caller may hand over as a symbol, as the name of one, or as a token to be parsed.
A rule is kept as the name of its nonterminal and its body, which is empty for an empty
rule.
-/
inductive Value where
  | text (content : Text)
  | int (number : Int)
  | bool (truth : Bool)
  | null
  | nonterm (name : Value)
  | term (name : Value)
  | epsilon
  | endMark
  | token (sort content : Value)
  | list (items : List Value)
  | tuple (items : List Value)
  | rule (head : Value) (body : List Value)
  deriving Inhabited

/-- The kinds of values, as messages tell them apart. -/
inductive Kind where
  | text | int | bool | null | nonterm | term | epsilon | endMark | token | list | tuple | rule
  deriving DecidableEq

def Kind.label : Kind → Text
  | .text => .ofString "str"
  | .int => .ofString "int"
  | .bool => .ofString "bool"
  | .null => .ofString "NoneType"
  | .nonterm => .ofString "NonTerm"
  | .term => .ofString "Term"
  | .epsilon => .ofString "Epsilon"
  | .endMark => .ofString "End"
  | .token => .ofString "Token"
  | .list => .ofString "list"
  | .tuple => .ofString "tuple"
  | .rule => .ofString "Rule"

namespace Value

def kind : Value → Kind
  | .text _ => .text
  | .int _ => .int
  | .bool _ => .bool
  | .null => .null
  | .nonterm _ => .nonterm
  | .term _ => .term
  | .epsilon => .epsilon
  | .endMark => .endMark
  | .token _ _ => .token
  | .list _ => .list
  | .tuple _ => .tuple
  | .rule _ _ => .rule

-----------------------------------------------------------------------------------------
-- Equality of values
-----------------------------------------------------------------------------------------

mutual

/-- Values are equal when they are built alike. -/
def equal : Value → Value → Bool
  | .text a, .text b => a == b
  | .int a, .int b => a == b
  | .bool a, .bool b => a == b
  | .null, .null => true
  | .nonterm a, .nonterm b => equal a b
  | .term a, .term b => equal a b
  | .epsilon, .epsilon => true
  | .endMark, .endMark => true
  | .token a c, .token b d => equal a b && equal c d
  | .list as, .list bs => equalAll as bs
  | .tuple as, .tuple bs => equalAll as bs
  | .rule a as, .rule b bs => equal a b && equalAll as bs
  | _, _ => false

def equalAll : List Value → List Value → Bool
  | [], [] => true
  | a :: as, b :: bs => equal a b && equalAll as bs
  | _, _ => false

end

mutual

/-- A value is equal to itself, by induction. -/
theorem equal_refl : ∀ a : Value, equal a a = true
  | .text _ | .int _ | .bool _ => by simp [equal]
  | .null | .epsilon | .endMark => rfl
  | .nonterm a | .term a => by simp [equal, equal_refl a]
  | .token a c => by simp [equal, equal_refl a, equal_refl c]
  | .list as | .tuple as => by simp [equal, equalAll_refl as]
  | .rule a as => by simp [equal, equal_refl a, equalAll_refl as]

/-- A list of values is equal to itself, by induction. -/
theorem equalAll_refl : ∀ as : List Value, equalAll as as = true
  | [] => rfl
  | a :: as => by simp [equalAll, equal_refl a, equalAll_refl as]

end

mutual

/-- Equal values are the same value, by induction on the first. -/
theorem eq_of_equal : ∀ {a b : Value}, equal a b = true → a = b
  | .text _, b, h => by cases b <;> simp_all [equal]
  | .int _, b, h => by cases b <;> simp_all [equal]
  | .bool _, b, h => by cases b <;> simp_all [equal]
  | .null, b, h => by cases b <;> simp_all [equal]
  | .nonterm _, b, h => by
      cases b <;> simp only [equal, Bool.false_eq_true] at h
      rw [eq_of_equal h]
  | .term _, b, h => by
      cases b <;> simp only [equal, Bool.false_eq_true] at h
      rw [eq_of_equal h]
  | .epsilon, b, h => by cases b <;> simp_all [equal]
  | .endMark, b, h => by cases b <;> simp_all [equal]
  | .token _ _, b, h => by
      cases b <;> simp only [equal, Bool.false_eq_true, Bool.and_eq_true] at h
      rw [eq_of_equal h.1, eq_of_equal h.2]
  | .list _, b, h => by
      cases b <;> simp only [equal, Bool.false_eq_true] at h
      rw [eq_of_equalAll h]
  | .tuple _, b, h => by
      cases b <;> simp only [equal, Bool.false_eq_true] at h
      rw [eq_of_equalAll h]
  | .rule _ _, b, h => by
      cases b <;> simp only [equal, Bool.false_eq_true, Bool.and_eq_true] at h
      rw [eq_of_equal h.1, eq_of_equalAll h.2]

/-- Equal lists of values are the same list, by induction on the first. -/
theorem eq_of_equalAll : ∀ {as bs : List Value}, equalAll as bs = true → as = bs
  | [], bs, h => by cases bs <;> simp_all [equalAll]
  | _ :: _, bs, h => by
      cases bs <;> simp only [equalAll, Bool.false_eq_true, Bool.and_eq_true] at h
      rw [eq_of_equal h.1, eq_of_equalAll h.2]

end

instance : DecidableEq Value := fun a b =>
  decidable_of_iff (equal a b = true) ⟨eq_of_equal, fun h => h ▸ equal_refl a⟩

-----------------------------------------------------------------------------------------
-- Values that count as one
-----------------------------------------------------------------------------------------

mutual

/-- The representative of all values that count as one: truth values become numbers. -/
def key : Value → Value
  | .bool truth => .int (if truth then 1 else 0)
  | .nonterm name => .nonterm name.key
  | .term name => .term name.key
  | .token sort content => .token sort.key content.key
  | .list items => .list (keys items)
  | .tuple items => .tuple (keys items)
  | .rule head body => .rule head.key (keys body)
  | .text content => .text content
  | .int number => .int number
  | .null => .null
  | .epsilon => .epsilon
  | .endMark => .endMark

def keys : List Value → List Value
  | [] => []
  | item :: items => item.key :: keys items

end

/-- Only a text counts as that text, by the cases of the representative. -/
theorem key_eq_text {a : Value} {t : Text} : a.key = .text t ↔ a = .text t := by
  cases a <;> simp [key]

mutual

/-- A value can be an element of a set or a key of a map unless it holds a list. -/
def hashable : Value → Bool
  | .list _ => false
  | .nonterm name | .term name => name.hashable
  | .token sort content => sort.hashable && content.hashable
  | .tuple items => allHashable items
  | .rule head body => head.hashable && allHashable body
  | .text _ | .int _ | .bool _ | .null | .epsilon | .endMark => true

def allHashable : List Value → Bool
  | [] => true
  | item :: items => item.hashable && allHashable items

end

-----------------------------------------------------------------------------------------
-- Parts of values
-----------------------------------------------------------------------------------------

/-- A value that stands in a row of symbols. -/
def isSymbol : Value → Bool
  | .nonterm _ | .term _ | .epsilon | .endMark => true
  | _ => false

/-- A value of the kind of terminals is one itself; any other value is the name of one. -/
def asTerm : Value → Value
  | .term name => .term name
  | value => .term value

end Value

open CodePoint (underscore apostrophe)

/-- A name that a terminal may have: a text of at least one code point, without surrogates. -/
def Text.isTermName (t : Text) : Bool :=
  !t.isEmpty && t.all fun c => !c.isSurrogate

/-- A name that a nonterminal may have: a letter or an underscore, then letters, digits,
underscores and apostrophes, all of ASCII.
-/
def Text.isNontermName : Text → Bool
  | [] => false
  | c :: cs =>
      (c.isLetter || c == underscore)
        && cs.all fun c => c.isLetter || c.isDigit || c == underscore || c == apostrophe

/-- A value that names a terminal, were it the name of one. -/
def Value.isTermName : Value → Bool
  | .text t => t.isTermName
  | _ => false

end PredictiveParsing
