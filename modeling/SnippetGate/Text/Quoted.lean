import SnippetGate.Text.Basic
import SnippetGate.Text.Printable

/-!
# Quoted texts

A text between quotes, on one line. Single quotes are used, or double quotes if the text holds
single quotes alone. What is not printable is escaped.
-/

namespace SnippetGate.Text

/-- The hexadecimal digits of a number, with zeros in front up to a width. -/
def hex (width n : Nat) : Text :=
  let ds := Nat.toDigits 16 n
  List.replicate (width - ds.length) '0' ++ ds

/-- A character inside of quotes. -/
def quotedChar (quote c : Char) : Text :=
  if c = quote ∨ c = '\\' then ['\\', c]
  else if c = '\n' then ['\\', 'n']
  else if c = '\r' then ['\\', 'r']
  else if c = '\t' then ['\\', 't']
  else if isPrintable c then [c]
  else if c.toNat < 0x100 then '\\' :: 'x' :: hex 2 c.toNat
  else if c.toNat < 0x10000 then '\\' :: 'u' :: hex 4 c.toNat
  else '\\' :: 'U' :: hex 8 c.toNat

/-- The quote that a text is put in. -/
def quoteFor (t : Text) : Char :=
  if t.contains '\x27' && !t.contains '\x22' then '\x22' else '\x27'

/-- A text in quotes. -/
def quoted (t : Text) : Text :=
  let q := quoteFor t
  q :: t.flatMap (quotedChar q) ++ [q]

/-- Texts in quotes, in brackets. -/
def quotedList (ts : List Text) : Text := '[' :: join ", ".toList (ts.map quoted) ++ [']']

end SnippetGate.Text
