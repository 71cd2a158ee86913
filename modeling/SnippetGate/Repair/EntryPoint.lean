import SnippetGate.Contract.Vocabulary
import SnippetGate.Pattern.Template
import SnippetGate.Repair.Basic

/-!
# Adopting an entry point

A text that does not declare the entry point may declare a component that can take its place: the
entry point written as an arrow function, a component that is mounted, or the only component
there is. That component is given the entry point's name and form.
-/

namespace SnippetGate.Repair

open Pattern

/-- The name of a component. -/
def componentName : Pattern := .seq (.one Char.isUpper) (many isNameChar)

/-- An empty parameter list. -/
def noParameters : Pattern := all [char '(', blanks, char ')']

/-- The declaration of a function without parameters. -/
def functionNamed (name : Pattern) : Pattern :=
  all [.wordEdge, word "function", gap, name, blanks, noParameters]

/-- An arrow function without parameters that is given a name, up to the brace of its body. -/
def arrowNamed (name : Text) : Pattern :=
  all [.wordEdge, Signature.declarator, gap, text name, blanks,
    opt (all [char ':', blanks, few1 fun c => c != '=' && c != ';']), char '=', blanks,
    noParameters, blanks,
    opt (all [char ':', blanks, few1 fun c => c != '=' && c != ';' && c != '{']),
    word "=>", blanks, char '{']

/-- The names of the components that are mounted. -/
def mountedNames (cfg : Settings) (t : Text) : List Text :=
  ((cfg.mountOf (.group 1 componentName)).findAll t).map (·.group 1)

/-- Whether a text declares a component of this name. -/
def isDeclared (t name : Text) : Bool :=
  (functionNamed (text name)).occursIn t || (arrowNamed name).occursIn t

/-- The one element of a list whose elements are all equal. -/
def onlyOne? : List Text → Option Text
  | [] => none
  | x :: xs => if xs.all (· == x) then some x else none

/-- The component to adopt, if there is no doubt. -/
def alias? (cfg : Settings) (t : Text) : Option Text :=
  if cfg.entryDeclaration.occursIn t then none
  else if (arrowNamed cfg.entryName).occursIn t then some cfg.entryName
  else
    ((mountedNames cfg t).reverse.find? fun n => n != cfg.entryName && isDeclared t n) <|>
      onlyOne? (((functionNamed (.group 1 componentName)).findAll t).map (·.group 1))

/-- The entry point's declaration as a template. -/
def entryTemplate (cfg : Settings) : Text := "function ".toList ++ cfg.entryName ++ "()".toList

/-- A text in which the component `target` is the entry point. -/
def adopt (cfg : Settings) (target t : Text) : Except Text Text := do
  let opening ← Template.parse 0 (entryTemplate cfg ++ " \x7b".toList)
  let plain := (arrowNamed target).replaceFirst (Template.fill opening) t
  let declaration ← Template.parse 0 (entryTemplate cfg)
  let named := (functionNamed (text target)).replaceFirst (Template.fill declaration) plain
  if target = cfg.entryName then return named
  let mount ← Template.parse 0 cfg.mountExpression
  return (cfg.mountOf (text target)).replaceAll (Template.fill mount) named

/-- A text with an entry point adopted, if there is one to adopt. -/
def adopted (cfg : Settings) (t : Text) : Except Text Text :=
  match alias? cfg t with
  | none => .ok t
  | some target => adopt cfg target t

/-- Give the entry point's name to a component that can take its place. -/
def adoptEntryPoint (cfg : Settings) : Repair where
  name := "adopt_entry_point".toList
  tier := .entryPoint
  detect := fun t => .ok (alias? cfg t)
  action := adopted cfg

end SnippetGate.Repair
