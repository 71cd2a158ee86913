import SnippetGate.Text.Blank

/-!
# Text

A text is a list of characters, and an offset counts characters. This module holds the
operations the library needs on texts: slices, trimming, search and replacement of fixed texts.
-/

namespace SnippetGate

/-- A snippet, a fragment of one, or a name in it. -/
abbrev Text := List Char

namespace Text

/-! ### Statements about the characters of a text -/

section

variable (t : Text) (p : Char → Prop) [DecidablePred p]

-- Looking at the text only: a decision over all characters there are would never end.
instance (priority := high) decidableForallMem : Decidable (∀ x ∈ t, p x) := List.decidableBAll p t

instance (priority := high) decidableExistsMem : Decidable (∃ x ∈ t, p x) := List.decidableBEx p t

end

/-! ### Slices -/

/-- The part of `t` from offset `i` up to, not including, offset `j`. -/
def slice (t : Text) (i j : Nat) : Text := (t.take j).drop i

/-! ### Trimming -/

/-- `t` without its leading blanks. -/
def trimStart (t : Text) : Text := t.dropWhile isBlank

/-- `t` without its trailing blanks. -/
def trimEnd (t : Text) : Text := (t.reverse.dropWhile isBlank).reverse

/-- `t` without the blanks at both of its ends. -/
def trim (t : Text) : Text := trimEnd (trimStart t)

/-- Whether `t` holds nothing but blanks. -/
def allBlank (t : Text) : Bool := t.all isBlank

/-! ### Fixed texts inside a text -/

/-- The offset of the first occurrence of `part` in `t`. -/
def find? (part : Text) : Text → Option Nat
  | [] => if part.isEmpty then some 0 else none
  | x :: t => if part.isPrefixOf (x :: t) then some 0 else (find? part t).map (· + 1)

/-- Whether `part` occurs in `t`. -/
def holds (t part : Text) : Bool := (find? part t).isSome

/-- The offset of the last occurrence of `part` in `t`. -/
def findLast? (part : Text) : Text → Option Nat
  | [] => if part.isEmpty then some 0 else none
  | x :: t =>
    match findLast? part t with
    | some i => some (i + 1)
    | none => if part.isPrefixOf (x :: t) then some 0 else none

/-- Walk through the text, leaving out the `skip` characters that belong to an occurrence of
`old` already replaced. -/
def replaceFrom (old new : Text) : Nat → Text → Text
  | _, [] => []
  | skip + 1, _ :: t => replaceFrom old new skip t
  | 0, x :: t =>
    if old.isPrefixOf (x :: t) then new ++ replaceFrom old new (old.length - 1) t
    else x :: replaceFrom old new 0 t

/-- `t` with every occurrence of the non-empty text `old`, taken from the left without overlap,
replaced by `new`. -/
def replace (t old new : Text) : Text := replaceFrom old new 0 t

/-! ### Joining and splitting -/

/-- The texts one after the other, with `sep` between neighbours. -/
def join (sep : Text) : List Text → Text
  | [] => []
  | [t] => t
  | t :: u :: r => t ++ sep ++ join sep (u :: r)

/-- The pieces of `t` between the occurrences of the character `sep`. There is always one piece
more than there are separators. -/
def splitOn (sep : Char) : Text → List Text
  | [] => [[]]
  | x :: t =>
    if x = sep then [] :: splitOn sep t
    else match splitOn sep t with
      | [] => [[x]]
      | p :: ps => (x :: p) :: ps

/-- The decimal digits of a natural number. -/
def ofNat (n : Nat) : Text := Nat.toDigits 10 n

/-- The decimal digits of an integer, after a minus sign if it is negative. -/
def ofInt : Int → Text
  | .ofNat n => ofNat n
  | .negSucc n => '-' :: ofNat (n + 1)

end Text

end SnippetGate
