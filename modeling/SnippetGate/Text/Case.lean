import SnippetGate.Text.Basic

/-!
# Comparing without case

Names fixed by a standard are compared in lower case. The Kelvin sign is the one character
outside of ASCII whose lower case is an ASCII letter alone. A pattern that ignores case is wider:
it also takes the dotted capital and the dotless small letter for `i`, and the long `s` for `s`.
-/

namespace SnippetGate

/-- The lower case of a character, as far as it is an ASCII letter. -/
def lowerCase (c : Char) : Char := if c = '\u212A' then 'k' else c.toLower

/-- A text in lower case, as far as ASCII letters are concerned. -/
def Text.lower (t : Text) : Text := t.map lowerCase

/-- Whether a character is a small ASCII letter up to case. -/
def sameLetter (letter c : Char) : Bool :=
  lowerCase c == letter ||
    (letter == 'i' && (c == '\u0130' || c == '\u0131')) || (letter == 's' && c == '\u017F')

end SnippetGate
