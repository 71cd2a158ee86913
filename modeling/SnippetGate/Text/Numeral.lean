import SnippetGate.Text.Blank
import SnippetGate.Text.Digit
import SnippetGate.Text.Quoted

/-!
# Reading numerals

An integer is written with decimal digits of any script, after an optional sign. Single low lines
may stand between digits, and blanks around the whole.
-/

namespace SnippetGate

/-- Why a text is no integer. -/
inductive NumeralFault where
  /-- It is not written as one. -/
  | malformed (t : Text)
  /-- It has more digits than are read. -/
  | tooLong (digits : Nat)
  deriving DecidableEq, Repr

namespace Numeral

/-- How many digits are read at most. -/
def maxDigits : Nat := 4300

/-- How many characters of a malformed numeral are shown at most. -/
def shownChars : Nat := 200

/-- Whether a character is a blank around a numeral. The information separators are not. -/
def isPadding (c : Char) : Bool := isBlank c && !(0x1C ≤ c.toNat && c.toNat ≤ 0x1F)

/-- The values of digits between which single low lines may stand. `afterDigit` tells whether a
low line may come next. -/
def digitsFrom (afterDigit : Bool) : Text → Option (List Nat)
  | [] => if afterDigit then some [] else none
  | c :: r =>
    if c = '_' then (if afterDigit then digitsFrom false r else none)
    else
      match digitValue? c with
      | none => none
      | some d => (digitsFrom true r).map (d :: ·)

/-- The number that digits write. -/
def value (ds : List Nat) : Nat := ds.foldl (fun n d => 10 * n + d) 0

/-- A text without the blanks around it. -/
def unpadded (t : Text) : Text :=
  ((t.dropWhile isPadding).reverse.dropWhile isPadding).reverse

/-- Whether a numeral is negative, and what follows its sign. -/
def signed : Text → Bool × Text
  | '-' :: r => (true, r)
  | '+' :: r => (false, r)
  | t => (false, t)

/-- The integer that a text writes. -/
def parse (t : Text) : Except NumeralFault Int :=
  let (negative, digits) := signed (unpadded t)
  match digitsFrom false digits with
  | none => .error (.malformed t)
  | some ds =>
    if ds.length > maxDigits then .error (.tooLong ds.length)
    else .ok (if negative then -(value ds : Int) else value ds)

end Numeral

/-- The wording of a fault. -/
def NumeralFault.message : NumeralFault → Text
  | malformed t =>
    "invalid literal for int() with base 10: ".toList ++
      (Text.quoted t).take Numeral.shownChars
  | tooLong digits =>
    "Exceeds the limit (".toList ++ Text.ofNat Numeral.maxDigits ++
      " digits) for integer string conversion: value has ".toList ++ Text.ofNat digits ++
      " digits; use sys.set_int_max_str_digits() to increase the limit".toList

end SnippetGate
