import SnippetGate.Pattern.Search
import SnippetGate.Text.Case
import SnippetGate.Text.Digit

/-!
# The state of a component

The state variables that a component declares, and guesses about what they are for, made from
their names and initial values.
-/

namespace SnippetGate

open Pattern

/-- A state variable. -/
structure StateVar where
  name : Text
  setter : Text
  /-- The expression that it starts with. -/
  initial : Text
  deriving DecidableEq, Repr

namespace StateVar

/-- The initial expression of a variable that is given none. -/
def noInitial : Text := "undefined".toList

/-- Whether the variable is a flag that starts unset. -/
def isFlag (v : StateVar) : Bool := v.initial == "false".toList

/-- The declaration of a state variable on a line. The groups are the name, the setter and the
initial expression. -/
def declaration : Pattern :=
  all [any [word "const", word "let", word "var"], blanks, char '[', blanks, .group 1 Pattern.name,
    blanks, char ',', blanks, .group 2 Pattern.name, blanks, char ']', blanks, char '=', blanks,
    opt (word "React."), word "useState", blanks,
    opt (all [char '<', many (fun c => c != '>' && c != '\n'), char '>']), blanks, char '(',
    .group 3 (few fun c => c != ';' && c != '\n'), char ')', blanks, opt (char ';'), indent,
    .lineEnd]

/-- The variables that a text declares on single lines, in the order of their declarations. -/
def findAll (t : Text) : List StateVar :=
  (declaration.findAll t).map fun m =>
    let initial := Text.trim (m.group 3)
    ⟨m.group 1, m.group 2, if initial.isEmpty then noInitial else initial⟩

/-! ### Hints in names -/

/-- A text up to case. -/
def anyCase (s : String) : Pattern := all (s.toList.map fun x => .one (sameLetter x))

/-- One of several texts up to case. -/
def anyCaseOf (ss : List String) : Pattern := any (ss.map anyCase)

/-- What the name of a position holds. -/
def indexHint : Pattern :=
  anyCaseOf ["index", "idx", "current", "step", "question", "page", "slide", "round", "level"]

/-- What the name of a position holds most clearly. -/
def strongIndexHint : Pattern := anyCaseOf ["index", "current"]

/-- What the name of a flag for the end holds. -/
def finishHint : Pattern :=
  anyCaseOf ["finish", "complete", "done", "result", "over", "end", "summary"]

/-- What the name of a flag for something shown holds. -/
def revealHint : Pattern := anyCaseOf ["reveal", "answer", "feedback", "hint", "explanation"]

/-- How the name of a flag may begin. -/
def showHint : Pattern := anyCaseOf ["show", "is"]

/-- Decimal digits, up to the end of the text. -/
def wholeNumber : Pattern := .seq (many1 isDigit) .textEnd

/-- Whether the variable looks like a position in a sequence. -/
def isIndexLike (v : StateVar) : Bool :=
  (wholeNumber.matchAt? (.ofText v.initial)).isSome && indexHint.occursIn v.name

/-- The variable that holds the position: a clear case, or else the first candidate. -/
def index? (vs : List StateVar) : Option StateVar :=
  let candidates := vs.filter isIndexLike
  (candidates.find? fun v => strongIndexHint.occursIn v.name) <|> candidates.head?

/-- The flag that is set at the end. -/
def finish? (vs : List StateVar) : Option StateVar :=
  vs.find? fun v => v.isFlag && finishHint.occursIn v.name

/-- The flag that is set when something is shown. -/
def reveal? (vs : List StateVar) : Option StateVar :=
  let flags := vs.filter isFlag
  (flags.find? fun v => revealHint.occursIn v.name) <|>
    flags.find? fun v =>
      (showHint.matchAt? (.ofText v.name)).isSome && !finishHint.occursIn v.name

/-- A name whose length is taken. The group is the name. -/
def lengthOperand : Pattern :=
  all [.wordEdge, .group 1 Pattern.name, word ".length", .wordEdge]

/-- The name of the collection that the component goes through: the first whose length is taken,
other than the position itself. -/
def collection? (t : Text) (vs : List StateVar) : Option Text :=
  ((lengthOperand.findAll t).map (·.group 1)).find? fun n => (index? vs).all (·.name != n)

end StateVar

end SnippetGate
