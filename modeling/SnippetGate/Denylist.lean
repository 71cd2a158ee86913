import SnippetGate.Pattern.Search
import SnippetGate.Settings

/-!
# The deny list

Code that a snippet may not hold, by category. The whole text counts, comments and strings
included, and letters count with their case. A category is violated by the first of its patterns
that has a piece in the text.
-/

namespace SnippetGate

/-- The categories of denied code, in the order in which they are reported. -/
inductive DenyCategory where
  | htmlInjection
  | codeEvaluation
  | functionConstructor
  | domManipulation
  | browserStorage
  | networkAccess
  | externalImport
  deriving DecidableEq, Repr

namespace DenyCategory

open Pattern

/-- All categories, in the order in which they are reported. -/
def all : List DenyCategory :=
  [htmlInjection, codeEvaluation, functionConstructor, domManipulation, browserStorage,
    networkAccess, externalImport]

/-- The identifier of a category. -/
def id : DenyCategory → Text
  | htmlInjection => "html_injection".toList
  | codeEvaluation => "code_evaluation".toList
  | functionConstructor => "function_constructor".toList
  | domManipulation => "dom_manipulation".toList
  | browserStorage => "browser_storage".toList
  | networkAccess => "network_access".toList
  | externalImport => "external_import".toList

/-- What a category forbids, in words. -/
def label : DenyCategory → Text
  | htmlInjection => "dynamic HTML injection".toList
  | codeEvaluation => "eval function".toList
  | functionConstructor => "Function constructor".toList
  | domManipulation => "direct DOM or location manipulation".toList
  | browserStorage => "persistent browser storage access".toList
  | networkAccess => "outbound network call".toList
  | externalImport => "external imports".toList

/-- A quote that can delimit the name of a module. -/
def moduleQuote : Pattern := .one fun c => c == '\x22' || c == '\x27'

/-- A quote, where the trusted module's name and a quote do not follow. -/
def otherModule (trusted : Text) : Pattern :=
  .seq moduleQuote (.notAhead (.seq (Pattern.text trusted) moduleQuote))

/-- Where no name of the script goes on. -/
def freshName : Pattern := .notAfter isNameChar

/-- Where no name of the script and no member access goes on. -/
def freshWord : Pattern := .notAfter fun c => isNameChar c || c == '.'

/-- A name followed by an opening parenthesis. -/
def call (name : String) : Pattern := Pattern.all [word name, blanks, char '(']

/-- The patterns of a category. The import patterns spare the trusted module. -/
def patterns (trusted : Text) : DenyCategory → List Pattern
  | htmlInjection =>
    [word "dangerouslySetInnerHTML",
      Pattern.all [word ".innerHTML", blanks, char '='],
      Pattern.all [word ".outerHTML", blanks, char '='],
      word "insertAdjacentHTML"]
  | codeEvaluation =>
    [call "eval",
      Pattern.all [freshName, word "set", any [word "Timeout", word "Interval"], blanks, char '(',
        blanks, .one fun c => c == '\x22' || c == '\x27' || c == '\x60']]
  | functionConstructor => [.seq freshName (call "Function")]
  | domManipulation =>
    [word "document.write",
      word "window.location",
      word "document.location",
      call "window.open",
      word "document.domain"]
  | browserStorage =>
    [word "localStorage.", word "sessionStorage.", word "indexedDB", word "document.cookie"]
  | networkAccess =>
    [.seq freshName (call "fetch"),
      word "XMLHttpRequest",
      Pattern.all [freshName, word "WebSocket", .wordEdge],
      Pattern.all [freshName, word "EventSource", .wordEdge],
      word "navigator.sendBeacon",
      .seq freshName (word "axios.")]
  | externalImport =>
    [Pattern.all [word "import", gap, few fun c => c != ';' && c != '\n', word "from", gap,
        otherModule trusted],
      Pattern.all [freshWord, word "import", gap, otherModule trusted],
      .seq freshWord (call "import"),
      .seq freshWord (call "require")]

/-- The piece of a text that violates the category: the first of its first pattern that has
one. -/
def violation? (trusted : Text) (t : Text) (c : DenyCategory) : Option Text :=
  (c.patterns trusted).findSome? fun p => (p.search? t).map Match.text

end DenyCategory

/-- A violated category, with the piece of text that violates it. -/
structure Violation where
  category : DenyCategory
  fragment : Text
  deriving DecidableEq, Repr

namespace Text

/-- The categories that a text violates, in order, each with the first piece that does. -/
def violations (t trusted : Text) : List Violation :=
  DenyCategory.all.filterMap fun c => (c.violation? trusted t).map (Violation.mk c)

/-- Whether a text violates no category. -/
def isHarmless (t trusted : Text) : Bool := (violations t trusted).isEmpty

end Text

end SnippetGate
