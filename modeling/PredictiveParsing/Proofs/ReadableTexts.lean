import PredictiveParsing.Proofs.SymbolNames
import PredictiveParsing.Text.Quoted

/-! Written forms that can be read where they stand at the beginning of a longer text: it is told
what they stand for, and where they end. An escape sequence is read code point by code point, a
quoted text ends at its mark, and forms in a row end at the separators between them.
-/

namespace PredictiveParsing.Text

open CodePoint

/-- A text of code points of one kind ends at the first one of another kind. -/
theorem append_cons_inj (kind : CodePoint → Bool) {a b x y : Text} {c d : CodePoint}
    (left : ∀ e ∈ a, kind e = true) (right : ∀ e ∈ b, kind e = true) (hc : kind c = false)
    (hd : kind d = false) (same : a ++ c :: x = b ++ d :: y)
    : a = b ∧ c = d ∧ x = y := by
  have front := congrArg (List.takeWhile kind) same
  have rest := congrArg (List.dropWhile kind) same
  rw [List.takeWhile_append_of_pos left, List.takeWhile_append_of_pos right] at front
  rw [List.dropWhile_append_of_pos left, List.dropWhile_append_of_pos right] at rest
  simp only [List.takeWhile_cons, List.dropWhile_cons, hc, hd, Bool.false_eq_true, if_false,
    List.append_nil, List.cons.injEq] at front rest
  exact ⟨front, rest⟩

/-- The text that a computation gives, and the empty one if it fails. -/
def written : Except Fault Text → Text
  | .ok t => t
  | .error _ => []

theorem eq_ok_written {shown : Except Fault Text} (writes : ∃ t, shown = .ok t)
    : shown = .ok (written shown) := by
  obtain ⟨t, rfl⟩ := writes
  rfl

-----------------------------------------------------------------------------------------
-- Names of nonterminals
-----------------------------------------------------------------------------------------

def beginsName (c : CodePoint) : Bool :=
  c.isLetter || c == underscore

def inName (c : CodePoint) : Bool :=
  c.isLetter || c.isDigit || c == underscore || c == apostrophe

section Names

variable {n : Text} (named : n.isNontermName = true)

include named

/-- A name has a first code point that may begin it, and then code points that may stand in it. -/
theorem exists_cons_of_isNontermName
    : ∃ d cs, n = d :: cs ∧ beginsName d = true ∧ cs.all inName = true := by
  cases n with
  | nil => cases named
  | cons d cs => exact ⟨d, cs, rfl, Bool.and_eq_true_iff.mp named⟩

theorem forall_inName : ∀ e ∈ n, inName e = true := by
  obtain ⟨d, cs, rfl, first, later⟩ := exists_cons_of_isNontermName named
  have start : inName d = true := by
    rcases Bool.or_eq_true_iff.mp first with letter | mark
    · simp [inName, letter]
    · simp [inName, mark]
  exact List.forall_mem_cons.mpr ⟨start, List.all_eq_true.mp later⟩

/-- A name does not begin with a code point that cannot begin one. -/
theorem name_append_ne {c : CodePoint} (other : beginsName c = false) (x y : Text)
    : n ++ x ≠ c :: y := by
  obtain ⟨d, cs, rfl, first, _⟩ := exists_cons_of_isNontermName named
  intro same
  rw [(List.cons.inj same).1, other] at first
  cases first

end Names

-----------------------------------------------------------------------------------------
-- Escape sequences
-----------------------------------------------------------------------------------------

def digitValue (digit : CodePoint) : Nat :=
  if digit.val < 0x3A then digit.val - 0x30 else digit.val - 0x57

def hexValue (digits : Text) : Nat :=
  digits.foldl (fun n digit => 16 * n + digitValue digit) 0

/-- A hexadecimal digit is read as the number for which it is written. -/
theorem digitValue_hexDigit {n : Nat} (small : n < 16) : digitValue (hexDigit n) = n := by
  unfold digitValue hexDigit
  split
  · rw [if_pos (by simp only; omega)]
    simp only
    omega
  · rw [if_neg (by simp only; omega)]
    simp only
    omega

theorem length_hex (width n : Nat) : (hex width n).length = width := by
  induction width generalizing n with
  | zero => rfl
  | succ width ih => rw [hex, List.length_append, ih, List.length_singleton]

/-- The last digits of a number stand for its remainder, by induction on how many there are. -/
theorem hexValue_hex (width n : Nat) : hexValue (hex width n) = n % 16 ^ width := by
  induction width generalizing n with
  | zero => rw [pow_zero, Nat.mod_one]; rfl
  | succ width ih =>
      have last : digitValue (hexDigit (n % 16)) = n % 16 :=
        digitValue_hexDigit (Nat.mod_lt n (by decide))
      rw [hex, hexValue, List.foldl_append, ← hexValue, ih, List.foldl_cons, List.foldl_nil, last,
        pow_succ', Nat.mod_mul, Nat.add_comm]

/-- The code point whose number stands in the first `width` digits of a text, and what stands
behind them.
-/
def readHex (width : Nat) (t : Text) : Option (CodePoint × Text) :=
  if h : hexValue (t.take width) < 0x110000 then some (⟨_, h⟩, t.drop width) else none

/-- The code point that is written at the beginning of a text, and what stands behind it. -/
def readEscape : Text → Option (CodePoint × Text)
  | [] => none
  | c :: t =>
      if c ≠ backslash then some (c, t)
      else
        match t with
        | [] => none
        | d :: t =>
            if d = ofChar 'n' then some (ofChar '\n', t)
            else if d = ofChar 'r' then some (ofChar '\r', t)
            else if d = ofChar 't' then some (ofChar '\t', t)
            else if d = ofChar 'x' then readHex 2 t
            else if d = ofChar 'u' then readHex 4 t
            else if d = ofChar 'U' then readHex 8 t
            else some (d, t)

/-- A number that fits into its digits is read back from them, whatever stands behind. -/
theorem readHex_hex (width : Nat) {c : CodePoint} (fits : c.val < 16 ^ width) (x : Text)
    : readHex width (hex width c.val ++ x) = some (c, x) := by
  have value : hexValue ((hex width c.val ++ x).take width) = c.val := by
    rw [List.take_left' (length_hex width c.val), hexValue_hex, Nat.mod_eq_of_lt fits]
  have rest : (hex width c.val ++ x).drop width = x := List.drop_left' (length_hex width c.val)
  simp only [readHex, value, rest, c.isLt, dite_true]

section Letters

variable (t : Text)

theorem readEscape_x : readEscape (backslash :: ofChar 'x' :: t) = readHex 2 t := rfl

theorem readEscape_u : readEscape (backslash :: ofChar 'u' :: t) = readHex 4 t := rfl

theorem readEscape_U : readEscape (backslash :: ofChar 'U' :: t) = readHex 8 t := rfl

end Letters

def IsQuoteMark (mark : CodePoint) : Prop :=
  mark = apostrophe ∨ mark = quotationMark

theorem isQuoteMark_quoteMark (t : Text) : IsQuoteMark (quoteMark t) := by
  unfold quoteMark
  split
  · exact Or.inr rfl
  · exact Or.inl rfl

/-- The code point of an escape sequence is read back, whatever stands behind it. -/
theorem readEscape_escape {mark : CodePoint} (quote : IsQuoteMark mark) (c : CodePoint) (x : Text)
    : readEscape (escape mark c ++ x) = some (c, x) := by
  have fits : c.val < 16 ^ 8 := c.isLt.trans (by decide)
  unfold escape
  split
  · rename_i own
    -- neither a mark nor the backslash is one of the letters behind a backslash
    rcases own with rfl | rfl
    · rcases quote with rfl | rfl <;> rfl
    · rfl
  rename_i other
  obtain ⟨_, plain⟩ := not_or.mp other
  split
  · rename_i same
    rw [same]
    rfl
  split
  · rename_i same
    rw [same]
    rfl
  split
  · rename_i same
    rw [same]
    rfl
  split
  · simp [readEscape, plain]
  split
  · rename_i small
    exact (readEscape_x _).trans (readHex_hex 2 small x)
  split
  · rename_i small
    exact (readEscape_u _).trans (readHex_hex 4 small x)
  · exact (readEscape_U _).trans (readHex_hex 8 fits x)

/-- Two escaped code points that are written alike are equal, with what stands behind them. -/
theorem escape_append_inj {mark c d : CodePoint} (quote : IsQuoteMark mark) {x y : Text}
    (same : escape mark c ++ x = escape mark d ++ y)
    : c = d ∧ x = y := by
  have read := congrArg readEscape same
  rw [readEscape_escape quote, readEscape_escape quote] at read
  exact Prod.mk.inj (Option.some.inj read)

/-- No escape sequence begins with the mark: only a visible code point other than the mark stands
for itself.
-/
theorem escape_append_ne_mark {mark : CodePoint} (quote : IsQuoteMark mark) (c : CodePoint)
    (x y : Text)
    : escape mark c ++ x ≠ mark :: y := by
  have apart : backslash ≠ mark := by rcases quote with rfl | rfl <;> decide
  have head : ∃ d t, escape mark c = d :: t ∧ d ≠ mark := by
    by_cases own : c = mark ∨ c = backslash
    · exact ⟨backslash, [c], if_pos own, apart⟩
    · rw [escape, if_neg own]
      repeat' split
      all_goals first
        | exact ⟨backslash, _, rfl, apart⟩
        | exact ⟨c, [], rfl, fun same => own (Or.inl same)⟩
  obtain ⟨d, t, form, other⟩ := head
  rw [form]
  exact fun same => other (List.cons.inj same).1

/-- Escape sequences in a row end at the first mark, by induction on the code points. -/
theorem flatMap_escape_inj {mark : CodePoint} (quote : IsQuoteMark mark) {s t x y : Text}
    (same : s.flatMap (escape mark) ++ mark :: x = t.flatMap (escape mark) ++ mark :: y)
    : s = t ∧ x = y := by
  induction s generalizing t with
  | nil =>
      cases t with
      | nil => exact ⟨rfl, (List.cons.inj same).2⟩
      | cons d t =>
          rw [List.flatMap_cons, List.append_assoc] at same
          exact absurd same.symm (escape_append_ne_mark quote d _ _)
  | cons c s ih =>
      rw [List.flatMap_cons, List.append_assoc] at same
      cases t with
      | nil => exact absurd same (escape_append_ne_mark quote c _ _)
      | cons d t =>
          rw [List.flatMap_cons, List.append_assoc] at same
          obtain ⟨rfl, later⟩ := escape_append_inj quote same
          obtain ⟨rfl, rest⟩ := ih later
          exact ⟨rfl, rest⟩

/-- A quoted text is read back from the beginning of a longer text: its first mark tells which mark
ends it.
-/
theorem quoted_append_inj {s t x y : Text} (same : quoted s ++ x = quoted t ++ y)
    : s = t ∧ x = y := by
  simp only [quoted, List.cons_append, List.append_assoc, List.nil_append] at same
  obtain ⟨marks, rest⟩ := List.cons.inj same
  rw [← marks] at rest
  exact flatMap_escape_inj (isQuoteMark_quoteMark s) rest

-----------------------------------------------------------------------------------------
-- Forms in a row
-----------------------------------------------------------------------------------------

section Rows

variable {α : Type} (form : α → Text) (gap stop : CodePoint)

/-- The forms of two things are told apart by what stands behind them, if that begins with a
separator or with the mark behind the row.
-/
def ToldApart (a b : α) : Prop :=
  ∀ c d x y,
    c ∈ [gap, stop]
    → d ∈ [gap, stop]
    → form a ++ c :: x = form b ++ d :: y
    → a = b ∧ c = d ∧ x = y

/-- Behind the first form of a row stands the mark, or a separator and the rest of the row. -/
theorem join_cons_append (a : α) (as : List α) (x : Text)
    : ∃ c y,
        join [gap] ((a :: as).map form) ++ stop :: x = form a ++ c :: y
        ∧ (as = [] ∧ c = stop ∧ y = x
          ∨ as ≠ [] ∧ c = gap ∧ y = join [gap] (as.map form) ++ stop :: x) := by
  cases as with
  | nil => exact ⟨stop, x, by simp [join], Or.inl ⟨rfl, rfl, rfl⟩⟩
  | cons b as =>
      exact ⟨gap, _, by simp [join], Or.inr ⟨List.cons_ne_nil b as, rfl, rfl⟩⟩

/-- Things in a row are told by their forms if single ones are, and no form begins with the mark
that ends the row. By induction on one of the rows.
-/
theorem join_append_inj (differ : gap ≠ stop) {as bs : List α}
    (apart : ∀ a ∈ as, ∀ b ∈ bs, ToldApart form gap stop a b)
    (left : ∀ a ∈ as, ∀ x y, form a ++ x ≠ stop :: y)
    (right : ∀ b ∈ bs, ∀ x y, form b ++ x ≠ stop :: y) {x y : Text}
    (same : join [gap] (as.map form) ++ stop :: x = join [gap] (bs.map form) ++ stop :: y)
    : as = bs ∧ x = y := by
  induction as generalizing bs with
  | nil =>
      cases bs with
      | nil => exact ⟨rfl, (List.cons.inj same).2⟩
      | cons b bs =>
          obtain ⟨d, v, row, _⟩ := join_cons_append form gap stop b bs y
          exact absurd (row.symm.trans same.symm) (right b List.mem_cons_self _ _)
  | cons a as ih =>
      obtain ⟨c, u, row, begins⟩ := join_cons_append form gap stop a as x
      cases bs with
      | nil => exact absurd (row.symm.trans same) (left a List.mem_cons_self _ _)
      | cons b bs =>
          obtain ⟨d, v, row', begins'⟩ := join_cons_append form gap stop b bs y
          rw [row, row'] at same
          have among : c ∈ [gap, stop] := by rcases begins with ⟨_, rfl, _⟩ | ⟨_, rfl, _⟩ <;> simp
          have among' : d ∈ [gap, stop] := by rcases begins' with ⟨_, rfl, _⟩ | ⟨_, rfl, _⟩ <;> simp
          have later : ∀ e ∈ as, ∀ f ∈ bs, ToldApart form gap stop e f := fun e he f hf =>
            apart e (List.mem_cons_of_mem a he) f (List.mem_cons_of_mem b hf)
          -- the first things are equal, and the marks behind them tell whether more come
          obtain ⟨rfl, ends, rest⟩ :=
            apart a List.mem_cons_self b List.mem_cons_self c d u v among among' same
          rw [List.forall_mem_cons] at left right
          rcases begins with ⟨rfl, rfl, rfl⟩ | ⟨_, rfl, rfl⟩
          · rcases begins' with ⟨rfl, _, rfl⟩ | ⟨_, rfl, _⟩
            · exact ⟨rfl, rest⟩
            · exact absurd ends.symm differ
          · rcases begins' with ⟨_, rfl, _⟩ | ⟨_, _, rfl⟩
            · exact absurd ends differ
            · obtain ⟨rfl, behind⟩ := ih later left.2 right.2 rest
              exact ⟨rfl, behind⟩

end Rows

end PredictiveParsing.Text
