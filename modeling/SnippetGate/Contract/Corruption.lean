import SnippetGate.Pattern.Search

/-!
# Signatures of corruption

Defects that generated snippets are known to have. A signature detects one of them, tells what is
wrong, and in most cases holds a narrow action that mends it.
-/

namespace SnippetGate

open Pattern

/-- The tiers of the repairs. -/
inductive Tier where
  | cleanup
  | typo
  | entryPoint
  | conditional
  | emptyBody
  | tagPair
  | duplication
  | closure
  | tree
  deriving DecidableEq, Repr

namespace Tier

/-- The identifier of a tier. -/
def id : Tier → Text
  | cleanup => "cleanup".toList
  | typo => "typo".toList
  | entryPoint => "entry_point".toList
  | conditional => "conditional".toList
  | emptyBody => "empty_body".toList
  | tagPair => "tag_pair".toList
  | duplication => "duplication".toList
  | closure => "closure".toList
  | tree => "ast".toList

end Tier

/-- A known defect. -/
structure Signature where
  name : Text
  tier : Tier
  /-- A fragment that shows the defect. -/
  detect : Text → Option Text
  /-- The text with the defect mended, if there is a way. -/
  action? : Option (Text → Text)
  /-- The wording of the defect, in which a placeholder stands for the fragment. -/
  message : Text

namespace Signature

/-- What stands for the fragment in a message. -/
def placeholder : Text := "\x7bfragment\x7d".toList

/-- A message with the fragment in its place. -/
def wording (message fragment : Text) : Text := message.replace placeholder fragment

/-- What is wrong with a text that shows the fragment. -/
def describe (s : Signature) (fragment : Text) : Text := wording s.message fragment

/-! ### Typing errors -/

/-- Detect a fixed text. -/
def detectText (before : Text) (t : Text) : Option Text :=
  if t.holds before then some before else none

/-- Detect a piece of a pattern. -/
def detectPiece (p : Pattern) (t : Text) : Option Text := (p.search? t).map Match.text

/-- The element name and the attribute `type` run together. -/
def fusedInput : Signature where
  name := "fix_inputype".toList
  tier := .typo
  detect := detectText "<inputype=".toList
  action? := some fun t => t.replace "<inputype=".toList "<input type=".toList
  message := "JSX syntax error: <inputype= should be <input type=".toList

/-- The element name and the attribute `onClick` run together. -/
def fusedButton : Signature where
  name := "fix_button_click".toList
  tier := .typo
  detect := detectText "<buttonClick=".toList
  action? := some fun t => t.replace "<buttonClick=".toList "<button onClick=".toList
  message := "JSX syntax error: <buttonClick= should be <button onClick=".toList

/-- Whether a character ends a class list. -/
def isClassQuote (c : Char) : Bool := c == '\x22' || c == '\x27' || c == '\x60'

/-- A word in a class list. The first group is all that stands before it. -/
def classWord (bad : Text) : Pattern :=
  all [.group 1 (all [word "className", blanks, char '=', blanks,
      .one (fun c => isClassQuote c || c == '{'), few (fun c => !isClassQuote c)]),
    .wordEdge, text bad, .wordEdge]

/-- Put `good` in place of `bad` in class lists, up to `n` times in each. -/
def mendClass (bad good : Text) : Nat → Text → Text
  | 0, t => t
  | n + 1, t =>
    let mended := (classWord bad).replaceAll (fun m => m.group 1 ++ good) t
    if mended = t then t else mendClass bad good n mended

/-- How often a class list is mended. -/
def classRounds : Nat := 20

/-- Two class names run together around a shared letter. -/
def fusedBorderRounded : Signature where
  name := "fix_border_rounded".toList
  tier := .typo
  detect := detectPiece (classWord "borderounded".toList)
  action? := some (mendClass "borderounded".toList "border rounded".toList classRounds)
  message := "CSS class error: \x22borderounded\x22 should be \x22border rounded\x22".toList

/-- Two class names run together around a shared letter. -/
def fusedRoundedDisabled : Signature where
  name := "fix_rounded_disabled".toList
  tier := .typo
  detect := detectPiece (classWord "roundedisabled".toList)
  action? := some (mendClass "roundedisabled".toList "rounded disabled".toList classRounds)
  message := "CSS class error: \x22roundedisabled\x22 should be \x22rounded disabled\x22".toList

/-- An event attribute whose `on` is written twice. The groups are the event and the rest. -/
def doubledEvent : Pattern :=
  all [.wordEdge, word "on", .one (fun c => c == 'O' || c == 'o'), char 'n',
    .group 1 (.seq (.one Char.isUpper) (many Char.isAlpha)), .group 2 (.seq blanks (char '='))]

/-- An event attribute whose `on` is written twice. -/
def doubledEventPrefix : Signature where
  name := "fix_duplicate_event_prefix".toList
  tier := .typo
  detect := detectPiece doubledEvent
  action? := some (doubledEvent.replaceAll fun m => "on".toList ++ m.group 1 ++ m.group 2)
  message := "JSX syntax error: duplicated event prefix in \x22\x7bfragment\x7d\x22".toList

/-- A call of `setAnswer`. -/
def setAnswerCall : Pattern :=
  all [.notAfter (fun c => isNameChar c || c == '.'), word "setAnswer", blanks, char '(']

/-- A name at the end of an array pattern. -/
def declaredSetter (name : String) : Pattern := all [.wordEdge, word name, blanks, char ']']

/-- A call of the setter `setAnswer`, which is nowhere declared. -/
def undeclaredSetAnswer : Signature where
  name := "fix_set_answer".toList
  tier := .typo
  detect := fun t =>
    if setAnswerCall.occursIn t && !(declaredSetter "setAnswer").occursIn t then
      some "setAnswer(".toList
    else none
  action? := some fun t =>
    if (declaredSetter "setUserAnswer").occursIn t then
      setAnswerCall.replaceAll (fun _ => "setUserAnswer(".toList) t
    else t
  message :=
    ("Variable name error: \x22setAnswer\x22 is never declared " ++
      "(expected \x22setUserAnswer\x22)").toList

/-! ### Empty code -/

/-- An `else` whose block is opened and closed by the end of the function around it. The group is
the indentation of that end. -/
def emptyElse : Pattern :=
  all [char '}', blanks, word "else", blanks, char '{', indent, char '\n', .group 1 indent,
    word "\x7d;"]

/-- An `else` whose block is closed by the end of the function around it. -/
def emptyElseClose : Signature where
  name := "close_empty_else".toList
  tier := .conditional
  detect := detectPiece emptyElse
  action? := some (emptyElse.replaceAll fun m =>
    "\x7d\n".toList ++ m.group 1 ++ "\x7d;".toList)
  message := "Incomplete function with empty else block".toList

/-- An empty block. -/
def emptyBlock : Pattern := all [char '{', blanks, char '}']

/-- An `if` with an empty block and an `else` that ends the line. -/
def incompleteIfElse : Signature where
  name := "incomplete_if_else".toList
  tier := .conditional
  detect := detectPiece <| all [word "if", blanks, char '(', many (· != ')'), char ')', blanks,
    emptyBlock, blanks, word "else", blanks, char '{', blanks, .lineEnd]
  action? := none
  message := "Incomplete if/else statement detected".toList

/-- An `if` both of whose blocks are empty. -/
def emptyConditional : Signature where
  name := "empty_conditional".toList
  tier := .tree
  detect := detectPiece <| all [word "if", blanks, char '(',
    many (fun c => c != '{' && c != '}' && c != ';'), char ')', blanks, emptyBlock, blanks,
    word "else", blanks, emptyBlock]
  action? := none
  message := "Conditional with empty branches: \x7bfragment\x7d".toList

/-- A parameter list without parentheses inside. -/
def flatParameters : Pattern :=
  all [char '(', many (fun c => c != '(' && c != ')'), char ')']

/-- A keyword that declares a variable. -/
def declarator : Pattern := any [word "const", word "let", word "var"]

/-- An arrow function with an empty body that is given a name. The groups are the indentation and
the name. -/
def emptyArrow : Pattern :=
  all [.lineStart, .group 1 indent, declarator, gap, .group 2 Pattern.name, blanks, char '=',
    blanks, opt (.seq (word "async") blanks), flatParameters, blanks,
    opt (all [char ':', blanks,
      few1 fun c => c != '=' && c != ';' && c != '{' && c != '}']),
    word "=>", blanks, emptyBlock]

/-- A function declaration with an empty body. The groups are the indentation and the name. -/
def emptyFunction : Pattern :=
  all [.lineStart, .group 1 indent, opt (.seq (word "async") gap), word "function", gap,
    .group 2 Pattern.name, blanks, flatParameters, blanks, emptyBlock]

/-- The forms of functions with an empty body. -/
def emptyHandlers : List Pattern := [emptyArrow, emptyFunction]

/-- A function with an empty body. -/
def emptyHandlerBody : Signature where
  name := "empty_handler_body".toList
  tier := .emptyBody
  detect := fun t => emptyHandlers.findSome? fun p => (p.search? t).map (·.group 2)
  action? := none
  message := "Empty function bodies are not allowed: \x7bfragment\x7d".toList

/-! ### Drawing elements outside of a drawing -/

/-- The names of the drawing elements. -/
def drawingName : Pattern :=
  any [word "rect", word "circle", word "ellipse", word "line", word "polygon", word "polyline",
    word "path"]

/-- The beginning of a drawing element. -/
def drawingStart : Pattern := all [char '<', .group 1 drawingName, .wordEdge]

/-- A drawing element without content, with the blanks around it. -/
def drawingElement : Pattern :=
  all [indent, drawingStart, few (fun c => c != '<' && c != '>'),
    any [word "/>",
      all [char '>', blanks, word "</", .again 1, blanks, char '>']],
    indent, opt (char '\n')]

/-- Drawing elements in a text that has no drawing. -/
def orphanDrawing : Signature where
  name := "strip_orphan_svg".toList
  tier := .duplication
  detect := fun t =>
    if t.holds "<svg".toList then none else (drawingStart.search? t).map Match.text
  action? := some fun t =>
    if t.holds "<svg".toList then t else drawingElement.replaceAll (fun _ => []) t
  message := "SVG elements found without svg container".toList

/-! ### The catalogue -/

/-- All signatures, in the order in which they are reported. -/
def catalogue : List Signature :=
  [fusedInput, fusedButton, fusedBorderRounded, fusedRoundedDisabled, doubledEventPrefix,
    undeclaredSetAnswer, emptyElseClose, incompleteIfElse, emptyConditional, emptyHandlerBody,
    orphanDrawing]

/-- The signatures of a tier. -/
def ofTier (tier : Tier) : List Signature := catalogue.filter (·.tier == tier)

end Signature

end SnippetGate
