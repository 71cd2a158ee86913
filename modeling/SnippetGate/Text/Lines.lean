import SnippetGate.Text.Basic

/-!
# Lines of a text

Line numbers, the indentation of a line, and the lines of a text under the full set of Unicode
line breaks.
-/

namespace SnippetGate.Text

/-- The number of the line that holds offset `pos`, counted from one. -/
def lineOf (t : Text) (pos : Nat) : Nat := (t.take pos).count '\n' + 1

/-- The offset where the line that holds offset `pos` begins. -/
def lineStart (t : Text) (pos : Nat) : Nat :=
  let head := t.take pos
  head.length - (head.reverse.takeWhile (· != '\n')).length

/-- The offset of the first newline at offset `pos` or after it, or else the end of the text. -/
def lineEnd (t : Text) (pos : Nat) : Nat :=
  min pos t.length + ((t.drop pos).takeWhile (· != '\n')).length

/-- Whether a character is a space or a tab. -/
def isIndent (c : Char) : Bool := c == ' ' || c == '\t'

/-- The spaces and tabs at the beginning of a text. -/
def leadingIndent (t : Text) : Text := t.takeWhile isIndent

/-- The indentation of the line that holds offset `pos`. -/
def indentAt (t : Text) (pos : Nat) : Text := leadingIndent (t.drop (lineStart t pos))

/-- Whether a character ends a line, beside the newline. -/
def isLineBreak (c : Char) : Bool :=
  c == '\n' || c == '\r' || c == '\x0b' || c == '\x0c' || c == '\x1c' || c == '\x1d' ||
    c == '\x1e' || c == '\x85' || c == '\u2028' || c == '\u2029'

/-- The lines of a text with `line` already read, without their breaks. A carriage return and a
newline after it are one break, and a break at the end of the text begins no further line. -/
def linesFrom (line : Text) : Text → List Text
  | [] => if line.isEmpty then [] else [line.reverse]
  | '\r' :: '\n' :: r => line.reverse :: linesFrom [] r
  | x :: r => if isLineBreak x then line.reverse :: linesFrom [] r else linesFrom (x :: line) r

/-- The lines of a text. -/
def lines (t : Text) : List Text := linesFrom [] t

/-- A text with every carriage return, and every pair of carriage return and newline, replaced by
a newline. -/
def universalNewlines : Text → Text
  | [] => []
  | '\r' :: '\n' :: r => '\n' :: universalNewlines r
  | x :: r => (if x = '\r' then '\n' else x) :: universalNewlines r

end SnippetGate.Text
