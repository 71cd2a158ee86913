import SnippetGate.Bytes.Utf8

/-!
# Syntax trees

A node has a kind, a range of bytes and children. A child may be the holder of a field of its
parent. Nodes for fixed pieces of text are tokens; all others are named. Comments and remarks are
named nodes and may stand among the children of any node.
-/

namespace SnippetGate.Tsx

/-- The fields of nodes that repairs look at. -/
inductive Field where
  | name
  | value
  | body
  | function
  | arguments
  | condition
  | consequence
  | alternative
  deriving DecidableEq, Repr

/-- The kinds of nodes. -/
inductive NodeKind where
  | functionDeclaration
  | variableDeclarator
  | arrowFunction
  | functionExpression
  | ifStatement
  | elseClause
  | statementBlock
  | arrayPattern
  | identifier
  | callExpression
  | comment
  /-- A comment that is opened or closed as comments of markup are. -/
  | remark
  /-- A fixed piece of text. -/
  | token
  /-- Any other named node. -/
  | other (label : String)
  deriving DecidableEq, Repr

/-- Where a node stands. -/
structure Extent where
  /-- The byte where it begins. -/
  start : Nat
  /-- The byte where it ends. -/
  stop : Nat
  /-- The line where it begins, counted from zero. -/
  row : Nat
  deriving DecidableEq, Repr

/-- A syntax tree. -/
inductive Node where
  | mk (kind : NodeKind) (field? : Option Field) (extent : Extent) (children : List Node)
  deriving Repr

namespace Node

/-- The kind of a node. -/
def kind : Node → NodeKind
  | mk k _ _ _ => k

/-- The field of its parent that a node holds. -/
def field? : Node → Option Field
  | mk _ f _ _ => f

/-- Where a node stands. -/
def extent : Node → Extent
  | mk _ _ e _ => e

/-- The children of a node. -/
def children : Node → List Node
  | mk _ _ _ cs => cs

/-- The byte where a node begins. -/
def start (n : Node) : Nat := n.extent.start

/-- The byte where a node ends. -/
def stop (n : Node) : Nat := n.extent.stop

/-- The line where a node begins, counted from zero. -/
def row (n : Node) : Nat := n.extent.row

/-- Whether a node is more than a fixed piece of text. -/
def isNamed (n : Node) : Bool := n.kind != .token

/-- Whether a node is a comment. -/
def isComment (n : Node) : Bool := n.kind == .comment

/-- Whether a node may stand among the children of any node. -/
def isExtra (n : Node) : Bool := n.kind == .comment || n.kind == .remark

/-- The same node as the holder of a field. -/
def withField (f : Field) : Node → Node
  | mk k _ e cs => mk k (some f) e cs

/-- The named children of a node. -/
def namedChildren (n : Node) : List Node := n.children.filter isNamed

/-- The first child that holds a field. -/
def child? (n : Node) (f : Field) : Option Node := n.children.find? (·.field? == some f)

mutual

/-- A node and all nodes below it, each before its children. -/
def walk : Node → List Node
  | mk k f e cs => mk k f e cs :: walkAll cs

/-- The nodes of several trees, one tree after the other. -/
def walkAll : List Node → List Node
  | [] => []
  | n :: ns => walk n ++ walkAll ns

end

/-- The text of a node in the bytes that were parsed. -/
def text (source : Bytes) (n : Node) : Text := (source.slice n.start n.stop).toText

end Node

/-- What a parser makes of a text. -/
structure Tree where
  root : Node
  /-- Whether some part of the text fits nowhere. -/
  hasError : Bool

/-- A parser takes bytes, and may fail with a message. -/
abbrev Parser := Bytes → Except Text Tree

end SnippetGate.Tsx
