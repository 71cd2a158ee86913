import SnippetGate.Tsx.Place

/-!
# Tokens that are more than a fixed piece of text

Names, numbers, strings, regular expressions, and the plain text of templates and markup. A token
is described by the number of characters that it takes at the beginning of a text.
-/

namespace SnippetGate.Tsx

/-! ### Escapes -/

/-- Whether a character is a hexadecimal digit. -/
def isHexDigit (c : Char) : Bool := c.isDigit || ('a' ≤ c && c ≤ 'f') || ('A' ≤ c && c ≤ 'F')

/-- The length of the number of a character after a backslash and its `u`. -/
def codePoint? : Text → Option Nat
  | '{' :: r =>
    let ds := r.takeWhile isHexDigit
    if !ds.isEmpty && (r.drop ds.length).head? == some '}' then some (ds.length + 2) else none
  | r => if ((r.take 4).takeWhile isHexDigit).length = 4 then some 4 else none

/-- The length of the escape sequence after a backslash. -/
def escape? : Text → Option Nat
  | 'x' :: a :: b :: _ => if isHexDigit a && isHexDigit b then some 3 else none
  | 'x' :: _ => none
  | 'u' :: r => (codePoint? r).map (1 + ·)
  | '\r' :: '\n' :: _ => some 2
  | _ :: _ => some 1
  | [] => none

/-! ### Names -/

/-- The characters that stand for themselves between names. -/
def punctuation : Text := ":;\x60\x22\x27@#.,|^&<=>+-*/\\%?!~()[]\x7b\x7d".toList

/-- Whether a character can stand in a name. -/
def isIdentifierChar (c : Char) : Bool :=
  c.isAlphanum || c == '_' || c == '$' ||
    !(c.toNat < 0x20 || isSpace c || punctuation.contains c)

/-- The length of the characters of a name, some of which may be written by their numbers. The
counter says how many characters are known to belong to it. -/
def nameChars : Nat → Text → Nat
  | _, [] => 0
  | known + 1, _ :: r => 1 + nameChars known r
  | 0, '\\' :: 'u' :: r =>
    match codePoint? r with
    | none => 0
    | some n => 2 + nameChars n r
  | 0, c :: r => if isIdentifierChar c then 1 + nameChars 0 r else 0

/-- The length of a name at the beginning of a text. No name begins with a digit. -/
def identifier? (t : Text) : Option Nat :=
  if (t.head?.map Char.isDigit).getD true then none
  else
    match nameChars 0 t with
    | 0 => none
    | n => some n

/-- The length of a private name, which begins with a number sign. -/
def privateIdentifier? : Text → Option Nat
  | '#' :: r => (identifier? r).map (1 + ·)
  | _ => none

/-- Whether a character can stand in a name with hyphens. -/
def isHyphenatedChar (c : Char) : Bool := c.isAlphanum || c == '_' || c == '$' || c == '-'

/-- The length of a name at the beginning of a text, which may hold hyphens. -/
def hyphenated? (t : Text) : Option Nat :=
  let n := (t.takeWhile isHyphenatedChar).length
  match identifier? t with
  | none => none
  | some m => if (t.take n).contains '-' ∧ m < n then some n else some m

/-- The length of the line that says by what a program is to be run. -/
def hashBang? : Text → Option Nat
  | '#' :: '!' :: r => some (2 + (r.takeWhile (· != '\n')).length)
  | _ => none

/-! ### Strings -/

/-- The length of the rest of a string, with the quote that ends it. A string may span lines. The
counter says how many characters are known to belong to it. -/
def stringRest (quote : Char) : Nat → Text → Option Nat
  | _, [] => none
  | known + 1, _ :: r => (stringRest quote known r).map (1 + ·)
  | 0, c :: r =>
    if c = quote then some 1
    else if c = '\\' then
      match escape? r with
      | none => none
      | some n => (stringRest quote n r).map (1 + ·)
    else (stringRest quote 0 r).map (1 + ·)

/-- The length of the string at the beginning of a text. -/
def string? : Text → Option Nat
  | c :: r =>
    if c = '\x22' ∨ c = '\x27' then (stringRest c 0 r).map (1 + ·) else none
  | [] => none

/-! ### Numbers -/

/-- The length of digits between which single low lines may stand, after another digit. -/
def moreDigits (isOne : Char → Bool) : Text → Nat
  | '_' :: c :: r => if isOne c then 2 + moreDigits isOne r else 0
  | c :: r => if isOne c then 1 + moreDigits isOne r else 0
  | [] => 0

/-- The length of digits between which single low lines may stand. -/
def digits (isOne : Char → Bool) : Text → Nat
  | c :: r => if isOne c then 1 + moreDigits isOne r else 0
  | [] => 0

/-- The length of the exponent at the beginning of a text. -/
def exponent : Text → Nat
  | e :: r =>
    if e = 'e' ∨ e = 'E' then
      match r with
      | s :: ds =>
        if s = '+' ∨ s = '-' then
          let n := digits Char.isDigit ds
          if n = 0 then 0 else n + 2
        else
          let n := digits Char.isDigit r
          if n = 0 then 0 else n + 1
      | [] => 0
    else 0
  | [] => 0

/-- The length of the number with the given base mark, if the text begins with it. -/
def based? (mark upper : Char) (isOne : Char → Bool) : Text → Option Nat
  | '0' :: m :: r =>
    let n := digits isOne r
    if (m = mark ∨ m = upper) ∧ n ≠ 0 then
      some (n + 2 + if (r.drop n).head? = some 'n' then 1 else 0)
    else none
  | _ => none

/-- The length of the decimal number at the beginning of a text. -/
def decimal? (t : Text) : Option Nat :=
  match t with
  | [] => none
  | '.' :: r =>
    if (r.head?.map Char.isDigit).getD false then
      let n := 1 + digits Char.isDigit r
      some (n + exponent (t.drop n))
    else none
  | c :: _ =>
    if c.isDigit then
      let n := digits Char.isDigit t
      match t.drop n with
      | 'n' :: _ => some (n + 1)
      | '.' :: r =>
        let m := n + 1 + digits Char.isDigit r
        some (m + exponent (t.drop m))
      | r => some (n + exponent r)
    else none

/-- The length of the number at the beginning of a text. -/
def number? (t : Text) : Option Nat :=
  based? 'x' 'X' isHexDigit t <|> based? 'b' 'B' (fun c => c == '0' || c == '1') t <|>
    based? 'o' 'O' (fun c => '0' ≤ c && c ≤ '7') t <|> decimal? t

/-! ### Regular expressions -/

/-- The length of the rest of a regular expression, with its slash. Inside of brackets a slash
stands for itself. -/
def regexRest (inClass : Bool) : Text → Option Nat
  | [] => none
  | '\\' :: c :: r => if c = '\n' then none else (regexRest inClass r).map (2 + ·)
  | c :: r =>
    if c = '\n' ∨ c = '\\' then none
    else if c = '/' ∧ !inClass then some 1
    else (regexRest (c == '[' || inClass && c != ']') r).map (1 + ·)

/-- The length of the regular expression at the beginning of a text, with its flags. -/
def regex? : Text → Option Nat
  | '/' :: r =>
    match r with
    | '/' :: _ => none
    | '*' :: _ => none
    | _ =>
      match regexRest false r with
      | none => none
      | some n => some (1 + n + ((r.drop n).takeWhile Char.isLower).length)
  | _ => none

/-! ### Templates and markup -/

/-- The length of the plain text of a template at the beginning of a text. The counter says how
many characters are known to belong to it. -/
def templateChars : Nat → Text → Nat
  | _, [] => 0
  | known + 1, _ :: r => 1 + templateChars known r
  | 0, '\x60' :: _ => 0
  | 0, '$' :: '{' :: _ => 0
  | 0, '\\' :: r =>
    match escape? r with
    | none => 0
    | some n => 1 + templateChars n r
  | 0, _ :: r => 1 + templateChars 0 r

/-- The plain text of a template, if there is any. -/
def templateText? (t : Text) : Option Nat :=
  match templateChars 0 t with
  | 0 => none
  | n => some n

/-- Whether a character can stand in the text of markup. -/
def isMarkupChar (c : Char) : Bool := !(c == '{' || c == '}' || c == '<' || c == '>' || c == '\n')

/-- The length of one line of the text of markup, without the blanks before it. A line that begins
with two slashes goes on to its end. -/
def markupLine (t : Text) : Nat :=
  match t with
  | '/' :: '/' :: _ => (t.takeWhile (· != '\n')).length
  | _ => (t.takeWhile isMarkupChar).length

/-- One line of the text of markup at the beginning of a text. A remark is no text, and neither is
a comment that is longer than the text would be. -/
def markupText? (t : Text) : Option Nat :=
  let blank := spaces t
  let line := t.drop blank
  let n := markupLine line
  if n = 0 ∨ (remark? line).isSome ∨ n < (comment? line).getD 0 then none else some (blank + n)

end SnippetGate.Tsx
