import SnippetGate.Bytes.Splice
import SnippetGate.Handler.Body
import SnippetGate.Journal
import SnippetGate.Tsx.Node

/-!
# Filling empty code with the help of the syntax tree

Handlers that begin again or show something, and conditionals both of whose branches are empty,
are filled from the state of the component. A text that does not parse, or would not parse
afterwards, stays as it is.
-/

namespace SnippetGate.Tsx

namespace Node

/-- Whether a node is a block that holds nothing but comments. -/
def isEmptyBlock (n : Node) : Bool :=
  n.kind == .statementBlock && n.namedChildren.all isComment

/-- The names of the functions that declare state. -/
def stateHooks : List Text := ["useState", "React.useState"].map String.toList

/-- The state variable that a node declares: a pair of names for what such a function returns. -/
def stateVar? (source : Bytes) (n : Node) : Option StateVar := do
  guard (n.kind == .variableDeclarator)
  let pattern ← n.child? .name
  let value ← n.child? .value
  guard (pattern.kind == .arrayPattern && value.kind == .callExpression)
  let callee ← value.child? .function
  guard (stateHooks.contains (callee.text source))
  match pattern.namedChildren.filter (·.kind == .identifier) with
  | [name, setter] =>
    let argument := (value.child? .arguments).bind fun a => a.namedChildren.head?
    let initial := (argument.map (text source)).getD StateVar.noInitial
    some ⟨name.text source, setter.text source, initial⟩
  | _ => none

/-- The state variables that a program declares, in the order of their declarations. -/
def stateVars (source : Bytes) (root : Node) : List StateVar :=
  root.walk.filterMap (stateVar? source)

/-- The kinds of values that are functions. -/
def functionKinds : List NodeKind := [.arrowFunction, .functionExpression]

/-- The name and the body of a function that is declared, or that a variable is given. -/
def handler? (n : Node) : Option (Node × Node) := do
  let name ← n.child? .name
  match n.kind with
  | .functionDeclaration =>
    let body ← n.child? .body
    return (name, body)
  | .variableDeclarator =>
    let value ← n.child? .value
    guard (functionKinds.contains value.kind)
    let body ← value.child? .body
    return (name, body)
  | _ => none

/-- What stands in the other branch of a conditional. -/
def elseBlock? (n : Node) : Option Node :=
  match n.child? .alternative with
  | none => none
  | some a => if a.kind == .elseClause then a.namedChildren.head? else some a

end Node

namespace Filling

/-- What is known of a program when its edits are collected. -/
structure Program where
  source : Bytes
  /-- The lines of the program. -/
  lines : List Text
  stateVars : List StateVar
  /-- The collection that the component goes through, or nothing. -/
  collection : Text

/-- What is known of a text with the given tree. -/
def Program.of (t : Text) (source : Bytes) (root : Node) : Program :=
  let vs := root.stateVars source
  ⟨source, Text.splitOn '\n' t, vs, (StateVar.collection? t vs).getD []⟩

/-- The indentation of a line. -/
def Program.indent (p : Program) (row : Nat) : Text :=
  Text.leadingIndent ((p.lines[row]?).getD [])

/-- The name of the repair that fills a handler. -/
def handlerRepair (role : Role) : Text := "ast_fill_".toList ++ role.id ++ "_handler".toList

/-- The name of the repair that fills a conditional. -/
def conditionalRepair : Text := "ast_fill_conditional".toList

/-- The edit that fills a handler, if it is empty and its body is known. -/
def handlerEdit? (p : Program) (n : Node) : Option Edit := do
  let (name, body) ← n.handler?
  let role ← Role.ofName? (name.text p.source)
  guard (!role.isFilledInText && body.isEmptyBlock)
  let lines ← Handler.body? role p.stateVars p.collection
  return ⟨body.start, body.stop, Bytes.ofText (Handler.block lines (p.indent n.row)),
    handlerRepair role⟩

/-- The edit that fills a conditional, if both of its branches are empty and known. -/
def conditionalEdit? (p : Program) (n : Node) : Option Edit := do
  guard (n.kind == .ifStatement)
  let consequence ← n.child? .consequence
  let alternative ← n.elseBlock?
  guard (consequence.isEmptyBlock && alternative.isEmptyBlock)
  let condition := ((n.child? .condition).map (Node.text p.source)).getD []
  let (first, second) ← Handler.branches? condition p.stateVars
  let indent := p.indent n.row
  return ⟨consequence.start, alternative.stop,
    Bytes.ofText (Handler.block first indent ++ " else ".toList ++ Handler.block second indent),
    conditionalRepair⟩

/-- The edits that a node asks for. -/
def nodeEdit? (p : Program) (n : Node) : Option Edit := handlerEdit? p n <|> conditionalEdit? p n

/-- All edits of a program, in the order of its nodes. -/
def edits (t : Text) (source : Bytes) (root : Node) : List Edit :=
  root.walk.filterMap (nodeEdit? (Program.of t source root))

/-- Where parsers come from. -/
inductive Supply where
  /-- There is a parser. -/
  | available (parser : Parser)
  /-- There are no parsers at all. -/
  | notInstalled
  /-- There is no parser for the grammar, for this reason. -/
  | noGrammar (reason : Text)

/-- Whether there is a parser. -/
def Supply.isAvailable : Supply → Bool
  | available _ => true
  | _ => false

/-- A text after filling, with the names of the repairs that counted. -/
structure Filled where
  text : Text
  applied : List Text := []
  /-- The journal, in order. -/
  journal : List Entry := []
  deriving DecidableEq, Repr

/-- The text as it was, with a note. -/
def unchanged (t : Text) (note : String) : Filled := { text := t, journal := [.line note.toList] }

/-- The edits carried out, unless there are none or the result does not parse. -/
def carryOut (parser : Parser) (t : Text) (source : Bytes) (es : List Edit) :
    Except Text Filled := do
  if es.isEmpty then return { text := t }
  let (mended, applied) := Edit.splice source es
  let tree ← parser mended
  if tree.hasError then
    return unchanged t "ast_repair: repaired snippet no longer parses, keeping original"
  match mended.toText? with
  | none => .error "the mended bytes are no text".toList
  | some u => return { text := u, applied := applied }

/-- A text filled with the help of a parser. -/
def fillWith (parser : Parser) (t : Text) : Except Text Filled := do
  let source := Bytes.ofText t
  let tree ← parser source
  if tree.hasError then
    return unchanged t "ast_repair: snippet does not parse cleanly, skipping"
  carryOut parser t source (edits t source tree.root)

/-- A text with its empty code filled, as far as it can be. -/
def fill (grammar : Text) (supply : Supply) (t : Text) : Filled :=
  match supply with
  | .notInstalled => unchanged t "ast_repair: tree-sitter-languages not installed"
  | .noGrammar reason =>
    { text := t
      journal := [.line ("ast_repair: no parser for ".toList ++ grammar ++ ": ".toList ++
        reason)] }
  | .available parser =>
    if Text.allBlank t then { text := t }
    else
      match fillWith parser t with
      | .ok r => r
      | .error e => { text := t, journal := [.line ("ast_repair: failed: ".toList ++ e)] }

end Filling

end SnippetGate.Tsx
