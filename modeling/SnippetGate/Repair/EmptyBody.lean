import SnippetGate.Handler.Body
import SnippetGate.Repair.Basic

/-!
# Filling empty handlers

A handler with an empty body whose name tells its role gets a body from the component's state.
-/

namespace SnippetGate.Repair

/-- The lines for a handler of this name, if its role is one that is filled here. -/
def handlerLines? (vs : List StateVar) (collection name : Text) : Option (List Text) :=
  match Role.ofName? name with
  | none => none
  | some role => if role.isFilledInText then Handler.body? role vs collection else none

/-- The state and the collection of a component. -/
def stateOf (t : Text) : List StateVar × Text :=
  let vs := StateVar.findAll t
  (vs, (StateVar.collection? t vs).getD [])

/-- The names of the handlers with an empty body, first the arrow functions. -/
def emptyHandlerNames (t : Text) : List Text :=
  Signature.emptyHandlers.flatMap fun p => (p.findAll t).map (·.group 2)

/-- The first handler that can be filled. -/
def fillable? (t : Text) : Option Text :=
  let (vs, collection) := stateOf t
  (emptyHandlerNames t).find? fun n => (handlerLines? vs collection n).isSome

/-- A function with an empty body, filled if it can be. -/
def filled (vs : List StateVar) (collection : Text) (m : Match) : Text :=
  match handlerLines? vs collection (m.group 2) with
  | none => m.text
  | some lines =>
    m.text.take ((Text.findLast? ['{'] m.text).getD m.text.length) ++
      Handler.block lines (m.group 1)

/-- A text with all handlers filled that can be. -/
def withHandlers (t : Text) : Text :=
  let (vs, collection) := stateOf t
  Signature.emptyHandlers.foldl (fun t p => p.replaceAll (filled vs collection) t) t

/-- Fill the handlers whose role is known. -/
def fillHandlers : Repair := sure "fill_known_handlers" .emptyBody fillable? withHandlers

end SnippetGate.Repair
