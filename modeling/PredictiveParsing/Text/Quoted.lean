import PredictiveParsing.Text.Printable

/-! Quoted texts: a text between quotation marks, written in visible code points only.
The mark is the apostrophe unless the text holds apostrophes and no double quotation mark.
-/

namespace PredictiveParsing.Text

open CodePoint

/-- The digits of hexadecimal notation, in lower case. -/
def hexDigit (n : Nat) : CodePoint :=
  if h : n < 10 then ⟨0x30 + n, by omega⟩ else ⟨0x57 + n % 16, by omega⟩

/-- The last `width` hexadecimal digits of a number. -/
def hex : Nat → Nat → Text
  | 0, _ => []
  | width + 1, n => hex width (n / 16) ++ [hexDigit (n % 16)]

/-- The mark that stands on both sides of the quoted text. -/
def quoteMark (t : Text) : CodePoint :=
  if t.contains apostrophe && !t.contains quotationMark then quotationMark else apostrophe

/-- A code point inside a quoted text. The backslash, the mark, line ends, the tabulator and
whatever has no visible form are written with a backslash.
-/
def escape (mark c : CodePoint) : Text :=
  if c = mark ∨ c = backslash then [backslash, c]
  else if c = ofChar '\n' then [backslash, ofChar 'n']
  else if c = ofChar '\r' then [backslash, ofChar 'r']
  else if c = ofChar '\t' then [backslash, ofChar 't']
  else if c.isPrintable then [c]
  else if c.val < 0x100 then backslash :: ofChar 'x' :: hex 2 c.val
  else if c.val < 0x10000 then backslash :: ofChar 'u' :: hex 4 c.val
  else backslash :: ofChar 'U' :: hex 8 c.val

def quoted (t : Text) : Text :=
  quoteMark t :: t.flatMap (escape (quoteMark t)) ++ [quoteMark t]

end PredictiveParsing.Text
