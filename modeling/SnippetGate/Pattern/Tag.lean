import SnippetGate.Balance.Markup
import SnippetGate.Pattern.Basic

/-!
# Patterns for tags
-/

namespace SnippetGate.Pattern

/-- The name of a tag. -/
def tagName : Pattern := .seq (.one Char.isAlpha) (many isTagNameChar)

/-- A closing tag with a name and no blanks before it. -/
def closingTag : Pattern := all [word "</", tagName, blanks, char '>']

/-- The closing tag of a fragment. -/
def fragmentClose : Pattern := word "</>"

end SnippetGate.Pattern
