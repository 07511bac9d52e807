/-! Texts as sequences of code points, with their order and the decimal form of numbers.
A text may hold surrogates, which a string of scalar values cannot.
-/

namespace PredictiveParsing

/-- A Unicode code point. Surrogates are code points, although no scalar values. -/
abbrev CodePoint := Fin 0x110000

/-- A text is a finite sequence of code points. -/
abbrev Text := List CodePoint

namespace CodePoint

def ofChar (c : Char) : CodePoint :=
  ⟨c.toNat, by
    have h : c.toNat.isValidChar := c.valid
    unfold Nat.isValidChar at h
    omega⟩

def apostrophe : CodePoint := ofChar '\x27'

/-- The mark that counts as a letter in names of nonterminals. -/
def underscore : CodePoint := ofChar '_'

def quotationMark : CodePoint := ofChar '\x22'

def backslash : CodePoint := ofChar '\x5C'

/-- The surrogates are the code points that encode no character of their own. -/
def isSurrogate (c : CodePoint) : Bool :=
  0xD800 ≤ c.val && c.val ≤ 0xDFFF

/-- The letters of ASCII, without those of any other script. -/
def isLetter (c : CodePoint) : Bool :=
  (0x41 ≤ c.val && c.val ≤ 0x5A) || (0x61 ≤ c.val && c.val ≤ 0x7A)

/-- The digits of ASCII, without those of any other script. -/
def isDigit (c : CodePoint) : Bool :=
  0x30 ≤ c.val && c.val ≤ 0x39

end CodePoint

namespace Text

/-- A string is the text of its scalar values. -/
def ofString (s : String) : Text :=
  s.toList.map CodePoint.ofChar

def natural (n : Nat) : Text :=
  (Nat.toDigits 10 n).map CodePoint.ofChar

/-- An integer in decimal digits, with a minus sign in front of a negative one. -/
def integer : Int → Text
  | .ofNat n => natural n
  | .negSucc n => CodePoint.ofChar '-' :: natural (n + 1)

/-- Texts are ordered by their first differing code point, and a prefix comes first. -/
def le : Text → Text → Bool
  | [], _ => true
  | _ :: _, [] => false
  | a :: as, b :: bs => decide (a < b) || (decide (a = b) && le as bs)

def sort (texts : List Text) : List Text :=
  texts.mergeSort le

/-- The texts of a list without repetitions, each in its first place. -/
def distinct : List Text → List Text
  | [] => []
  | t :: ts => t :: (distinct ts).filter fun u => decide (u ≠ t)

/-- The distinct texts of a list are those of the list, by induction. -/
@[simp] theorem mem_distinct {ts : List Text} {u : Text} : u ∈ distinct ts ↔ u ∈ ts := by
  induction ts with
  | nil => rfl
  | cons t ts ih =>
      by_cases h : u = t
      · simp [distinct, h]
      · simp [distinct, h, ih]

/-- The distinct texts of a list do not repeat, by induction. -/
theorem nodup_distinct (ts : List Text) : (distinct ts).Nodup := by
  induction ts with
  | nil => exact List.nodup_nil
  | cons t ts ih => exact List.nodup_cons.mpr ⟨by simp, ih.sublist List.filter_sublist⟩

def join (separator : Text) (texts : List Text) : Text :=
  separator.intercalate texts

end Text

end PredictiveParsing
