import SnippetGate.Handler.Role
import SnippetGate.Handler.State

/-!
# Bodies of event handlers

The lines that a handler of a role needs, made from the state of its component. A role whose
state cannot be guessed gets none.
-/

namespace SnippetGate

open Pattern

namespace Handler

/-- A statement that calls `function` on `argument`. -/
def callLine (function argument : Text) : Text :=
  function ++ '(' :: argument ++ ");".toList

/-- The statement that goes to the next position. -/
def advanceLine (index : StateVar) : Text := callLine index.setter (index.name ++ " + 1".toList)

/-- The statement that sets a flag. -/
def setLine (flag : StateVar) : Text := callLine flag.setter "true".toList

/-- A line inside of a block. -/
def nested (line : Text) : Text := ' ' :: ' ' :: line

/-- The lines that go to the next position, or end at the last one of the collection. -/
def advanceLines (vs : List StateVar) (collection : Text) : Option (List Text) :=
  (StateVar.index? vs).map fun index =>
    if collection.isEmpty then [advanceLine index]
    else
      let head := "if (".toList ++ index.name ++ " < ".toList ++ collection ++
        ".length - 1) \x7b".toList
      match StateVar.finish? vs with
      | none => [head, nested (advanceLine index), ['}']]
      | some finish =>
        [head, nested (advanceLine index), "\x7d else \x7b".toList, nested (setLine finish), ['}']]

/-- The lines, not indented, of a handler's body. An empty name stands for no collection. -/
def body? (role : Role) (vs : List StateVar) (collection : Text) : Option (List Text) :=
  match role with
  | .submit => advanceLines vs collection
  | .advance => advanceLines vs collection
  | .reset => if vs.isEmpty then none else some (vs.map fun v => callLine v.setter v.initial)
  | .reveal => (StateVar.reveal? vs).map fun flag => [setLine flag]

/-- A name of the script that stands alone. -/
def standalone (name : Text) : Pattern :=
  all [.notAfter isNameChar, text name, .notAhead (.one isNameChar)]

/-- A comparison that holds while there is something left. -/
def continues : Pattern := any [char '<', word "!="]

/-- The lines of the two branches of a conditional that compares the position with a length. -/
def branches? (condition : Text) (vs : List StateVar) : Option (List Text × List Text) :=
  match StateVar.index? vs, StateVar.finish? vs with
  | some index, some finish =>
    if (standalone index.name).occursIn condition && condition.holds ".length".toList then
      if continues.occursIn condition then some ([advanceLine index], [setLine finish])
      else some ([setLine finish], [advanceLine index])
    else none
  | _, _ => none

/-- A block of lines inside of a text with the given indentation. -/
def block (lines : List Text) (indent : Text) : Text :=
  '{' :: '\n' ::
    (lines.flatMap fun line => indent ++ nested line ++ ['\n']) ++ indent ++ ['}']

end Handler

end SnippetGate
