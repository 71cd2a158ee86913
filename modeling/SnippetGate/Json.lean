import SnippetGate.Text.Quoted

/-!
# Writing JSON

Values as indented text in ASCII. A character outside of ASCII is written as the hexadecimal codes
of its 16-bit units.
-/

namespace SnippetGate

/-- What can be written. -/
inductive Json where
  | bool (b : Bool)
  | string (t : Text)
  | strings (ts : List Text)
  deriving DecidableEq, Repr

namespace Json

/-- The 16-bit units of a character. -/
def units (c : Char) : List Nat :=
  if c.toNat < 0x10000 then [c.toNat]
  else [0xD800 + (c.toNat - 0x10000) / 0x400, 0xDC00 + (c.toNat - 0x10000) % 0x400]

/-- A character inside of a string. -/
def character (c : Char) : Text :=
  if c = '\x22' ∨ c = '\\' then ['\\', c]
  else if c = '\n' then ['\\', 'n']
  else if c = '\r' then ['\\', 'r']
  else if c = '\t' then ['\\', 't']
  else if c = '\x0c' then ['\\', 'f']
  else if c = '\x08' then ['\\', 'b']
  else if 0x20 ≤ c.toNat ∧ c.toNat < 0x7F then [c]
  else (units c).flatMap fun u => '\\' :: 'u' :: Text.hex 4 u

/-- A string. -/
def quote (t : Text) : Text := '\x22' :: t.flatMap character ++ ['\x22']

/-- The spaces in front of a line at a depth. -/
def margin (depth : Nat) : Text := List.replicate (2 * depth) ' '

/-- Items on lines of their own, between two brackets. -/
def lines (openBracket closeBracket : Char) (depth : Nat) (items : List Text) : Text :=
  if items.isEmpty then [openBracket, closeBracket]
  else
    openBracket :: '\n' ::
      Text.join [',', '\n'] (items.map fun i => margin (depth + 1) ++ i) ++
      '\n' :: margin depth ++ [closeBracket]

/-- A value at a depth. -/
def render (depth : Nat) : Json → Text
  | bool b => if b then "true".toList else "false".toList
  | string t => quote t
  | strings ts => lines '[' ']' depth (ts.map quote)

/-- An object of the given members. -/
def renderObject (members : List (Text × Json)) : Text :=
  lines '{' '}' 0 (members.map fun (k, v) => quote k ++ ": ".toList ++ render 1 v)

end Json

end SnippetGate
