import SnippetGate.Text.Ranges

/-!
# Blank characters

The characters that count as white space when a text is trimmed or a pattern asks for blanks:
those with the Unicode property `White_Space`, and the four information separators
U+001C to U+001F.
-/

namespace SnippetGate

/-- The code points of the blank characters. -/
def blankRanges : Ranges :=
  [(0x9, 0xD), (0x1C, 0x20), (0x85, 0x85), (0xA0, 0xA0), (0x1680, 0x1680), (0x2000, 0x200A),
    (0x2028, 0x2029), (0x202F, 0x202F), (0x205F, 0x205F), (0x3000, 0x3000)]

/-- Whether a character is blank. -/
def isBlank (c : Char) : Bool := blankRanges.hold c.toNat

end SnippetGate
