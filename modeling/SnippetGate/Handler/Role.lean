import SnippetGate.Text.Basic

/-!
# Roles of event handlers

The handlers that lessons are known to ship without a body, and what each of them is for. A name
that is not listed has no role.
-/

namespace SnippetGate

/-- What an event handler is for. -/
inductive Role where
  /-- Take an answer. -/
  | submit
  /-- Go to the next item. -/
  | advance
  /-- Begin again. -/
  | reset
  /-- Show what was hidden. -/
  | reveal
  deriving DecidableEq, Repr

namespace Role

/-- All roles. -/
def all : List Role := [submit, advance, reset, reveal]

/-- The identifier of a role. -/
def id : Role → Text
  | submit => "submit".toList
  | advance => "advance".toList
  | reset => "reset".toList
  | reveal => "reveal".toList

/-- The names of the handlers of a role. -/
def handlers : Role → List Text
  | submit =>
    ["handleSubmit", "handleAnswer", "handleAnswerSubmit", "handleSubmitAnswer", "submitAnswer",
      "checkAnswer", "handleCheckAnswer"].map String.toList
  | advance => ["handleNext", "handleNextQuestion", "nextQuestion", "goToNext"].map String.toList
  | reset =>
    ["handleReset", "handleRestart", "resetQuiz", "resetGame", "restartQuiz",
      "restartGame"].map String.toList
  | reveal =>
    ["handleReveal", "handleRevealAnswer", "handleShowAnswer", "revealAnswer"].map String.toList

/-- The role of the handler with a given name. -/
def ofName? (name : Text) : Option Role := all.find? fun r => r.handlers.contains name

/-- The role with a given identifier. -/
def ofId? (t : Text) : Option Role := all.find? fun r => r.id == t

/-- Whether handlers of the role are filled without looking at the syntax tree. -/
def isFilledInText : Role → Bool
  | submit | advance => true
  | reset | reveal => false

end Role

end SnippetGate
