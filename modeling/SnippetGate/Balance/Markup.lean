import SnippetGate.Text.Case
import SnippetGate.Text.Word

/-!
# Where markup begins and ends

The names of tags, closing tags as a whole, and the rule that tells an opening tag from a
comparison: a tag can only stand where an expression can begin.
-/

namespace SnippetGate

/-- Whether a character can stand in the name of a tag. -/
def isTagNameChar (c : Char) : Bool := isWord c || c == '.' || c == ':' || c == '-'

/-- The name of a tag at the beginning of a text. -/
def tagName? : Text → Option Text
  | [] => none
  | x :: r => if x.isAlpha then some (x :: r.takeWhile isTagNameChar) else none

/-- The rest of a closing tag, after its first two characters: the name, which is empty for a
fragment, and the number of characters up to the end of the tag. -/
def closingTagRest? (r : Text) : Option (Text × Nat) :=
  let inner := r.dropWhile isBlank
  let name := (tagName? inner).getD []
  let tail := inner.drop name.length
  if (tail.dropWhile isBlank).head? = some '>' then
    some (name, (r.takeWhile isBlank).length + name.length + (tail.takeWhile isBlank).length + 1)
  else none

/-- The elements that have no content and no closing tag. -/
def voidElements : List Text :=
  ["area", "base", "br", "col", "embed", "hr", "img", "input", "link", "meta", "source", "track",
    "wbr"].map String.toList

/-- Whether a tag of this name has no content. -/
def isVoid (name : Text) : Bool := voidElements.contains (Text.lower name)

/-- The characters after which an expression can begin. -/
def markupPreceders : Text := "(,[\x7b=?:&|;\x7d>".toList

/-- The words after which an expression can begin. -/
def wordsBeforeMarkup : List Text :=
  ["return", "yield", "default", "case", "else", "in", "of", "await"].map String.toList

/-- Whether an expression can begin after this text, given nearest character first: after nothing
but blanks, after one of the characters or after one of the words above. -/
def expressionCanFollow (before : Text) : Bool :=
  match before.dropWhile isBlank with
  | [] => true
  | x :: r =>
    markupPreceders.contains x ||
      isNameChar x && wordsBeforeMarkup.contains ((x :: r).takeWhile isNameChar).reverse

/-- Whether a `<` with these surroundings opens a tag. The text before it is given nearest
character first. -/
def opensMarkup (before after : Text) : Bool :=
  (after.head? == some '>' || (tagName? after).isSome) && expressionCanFollow before

end SnippetGate
