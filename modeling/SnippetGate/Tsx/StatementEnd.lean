import SnippetGate.Tsx.Lexeme

/-!
# Where a statement ends without a semicolon

A statement ends at the end of the program, before the brace that closes the block around it, and
at the end of a line unless the next line goes on with it.
-/

namespace SnippetGate.Tsx

/-- The rest of a text after blanks and comments, unless a slash follows that begins none. -/
def afterGap : Nat → Text → Option Text
  | 0, t => some t
  | fuel + 1, t =>
    let r := t.drop (spaces t)
    match r with
    | '/' :: _ =>
      match comment? r with
      | some n => afterGap fuel (r.drop n)
      | none => none
    | _ => some r

/-- Whether the line that begins so can begin a statement. After an expression a parenthesis or a
bracket goes on with it. -/
def beginsStatement (afterExpression : Bool) (t : Text) : Bool :=
  match t with
  | [] => true
  | c :: r =>
    if "\x60,.;*%><=?^|&/:".toList.contains c then false
    else if c = '(' ∨ c = '[' then !afterExpression
    else if c = '+' then r.head? = some '+'
    else if c = '-' then r.head? = some '-'
    else if c = '!' then r.head? ≠ some '='
    else
      let w := t.takeWhile Char.isAlpha
      !(w = "in".toList ∨ w = "instanceof".toList)

/-- Whether a statement can end before this text, which follows its last token. A brace before a
colon ends it only after an expression, since otherwise the brace may close a pattern that a type
follows. -/
def endsStatement (afterExpression : Bool) : Nat → Text → Bool
  | 0, _ => false
  | fuel + 1, t =>
    let r := t.dropWhile fun c => isSpace c && c != '\n'
    match r with
    | [] => true
    | '}' :: r => afterExpression || (r.dropWhile isSpace).head? ≠ some ':'
    | '\n' :: r =>
      match afterGap (r.length + 1) r with
      | none => false
      | some r => beginsStatement afterExpression r
    | _ =>
      match comment? r with
      | some n => endsStatement afterExpression fuel (r.drop n)
      | none => false

end SnippetGate.Tsx
