import SnippetGate.Tsx.Rule

/-!
# Symbols, words and tokens of typed script with markup

The grammar is split by what it describes: types, markup, expressions and statements. Its rules
meet in the symbols of this module.
-/

namespace SnippetGate.Tsx

/-- What surrounds an expression. -/
structure Setting where
  /-- Whether it stands in brackets, so that no statement can end inside of it. -/
  enclosed : Bool
  /-- Whether the colon after a parenthesis belongs to a choice around it. -/
  beforeColon : Bool
  /-- Whether the word `in` ends it. -/
  inHead : Bool
  deriving DecidableEq, Repr

namespace Setting

/-- Directly in a statement. -/
def statement : Setting := ⟨false, false, false⟩

/-- In brackets. -/
def brackets : Setting := ⟨true, false, false⟩

/-- In the head of a loop, before the word that names what the loop goes through. -/
def loopHead : Setting := ⟨true, false, true⟩

/-- Before a colon that must not be taken for the beginning of a type. -/
def colon : Setting := ⟨true, true, false⟩

end Setting

/-- The symbols of the grammar. -/
inductive Symbol where
  | program
  -- statements
  | statement
  | declaration
  | block
  | declarators
  | functionRest
  | classRest
  | classMember
  -- patterns
  | destructuring
  | pattern
  | element
  | parameters
  -- expressions
  | expression (c : Setting)
  | operation (c : Setting)
  | operand (c : Setting)
  | unary (c : Setting)
  | chain (c : Setting)
  | primary (c : Setting)
  | arguments
  | template
  | object
  | propertyName
  | method
  -- markup
  | markup
  | markupExpression
  -- types
  | type
  | typeSuffix
  | typeResult
  | typeArguments
  | typeParameters
  | unionType
  | objectType
  | typeMember
  deriving DecidableEq, Repr

namespace Grammar

open Rule

/-- Rules of this grammar. -/
abbrev R := Rule Symbol

/-- The rule of a symbol. -/
def s (x : Symbol) : R := .sym x

/-- An expression in brackets. -/
def inner : R := s (.expression .brackets)

/-- Expressions with commas between them. -/
def expressions (c : Setting) : R := list1 (s (.expression c))

/-- Expressions in brackets with commas between them. -/
def inners : R := expressions .brackets

/-! ### Words

A word with a meaning of its own is a plain name wherever that meaning is not possible, so only
words that can begin an expression are no names there. -/

/-- The words that begin an expression with a meaning of their own. -/
def expressionWords : List Text :=
  ["function", "class", "new", "delete", "typeof", "void", "await", "yield", "this", "super",
    "null", "true", "false", "import"].map String.toList

/-- The words that begin a statement with a meaning of their own, and can begin no expression. -/
def statementWords : List Text :=
  ["var", "const", "if", "switch", "for", "while", "do", "try", "with", "break", "continue",
    "return", "throw", "debugger", "enum", "interface", "abstract", "case",
    "default"].map String.toList

/-- The words that stand between operands or after a complete expression. -/
def infixWords : List Text :=
  ["in", "instanceof", "of", "as", "satisfies", "implements"].map String.toList

/-- The length of a name that is none of the given words. -/
def nameExcept? (words : List Text) (t : Text) : Option Nat :=
  (identifier? t).filter fun n => !words.contains (t.take n)

/-- Any name. -/
def anyName : R := .lexeme .identifier identifier?

/-- Names with points between them. -/
def pathName : R := .seq anyName (.many (.seq (p ".") anyName))

/-- A name in an expression. -/
def reference : R := .lexeme .identifier (nameExcept? expressionWords)

/-- A word as a name, where it has no meaning of its own. -/
def wordAsName (word : String) : R :=
  .lexeme .identifier fun t => (identifier? t).filter fun n => t.take n = word.toList

/-- The name of a property. -/
def property : R := .lexeme (.other "property_identifier") identifier?

/-- The name of a private property. -/
def privateName : R := .lexeme (.other "private_property_identifier") privateIdentifier?

/-- One of several words. -/
def anyWord (ws : List String) : R := any (ws.map kw)

/-- A word that modifies what follows, where something follows. -/
def modifier (ws : List String) : R :=
  .seq (anyWord ws)
    (.notAhead (any [p "(", p ":", p ",", p "\x7d", p "=", p "<", p ";", p "?", p "!", p ")"]))

/-- The rule if it fits, or nothing where the word that begins it does not follow. -/
def optUnless (word : String) (a : R) : R := .alt a (.notAhead (kw word))

/-! ### Tokens -/

/-- A number. -/
def number : R := .lexeme (.other "number") number?

/-- A string. -/
def string : R := .lexeme (.other "string") string?

/-- The first of the texts that a text begins with. -/
def operator? (ops : List Text) (t : Text) : Option Nat :=
  (ops.find? fun o => o.isPrefixOf t).map List.length

/-- The operators between two operands, a longer one before its beginnings. -/
def binaryOperators : List Text :=
  ["===", "!==", ">>>", "**", "==", "!=", ">>", "<<", "<=", ">=", "&&", "||", "??", "+", "-", "*",
    "/", "%", "&", "|", "^", "<", ">"].map String.toList

/-- The operators that assign, a longer one before its beginnings. -/
def assignmentOperators : List Text :=
  [">>>=", "**=", ">>=", "<<=", "&&=", "||=", "??=", "+=", "-=", "*=", "/=", "%=", "&=", "|=",
    "^="].map String.toList

/-- The length of a lone equals sign. -/
def equals? : Text → Option Nat
  | '=' :: '=' :: _ => none
  | '=' :: '>' :: _ => none
  | '=' :: _ => some 1
  | _ => none

/-- A lone equals sign. -/
def equals : R := .lexeme .token equals?

/-- The length of an operator that assigns. -/
def assignmentOperator? (t : Text) : Option Nat := operator? assignmentOperators t <|> equals? t

/-! ### Small parts -/

/-- A semicolon, or the end of a statement without one. -/
def semicolon (afterExpression : Bool) : R := .alt (p ";") (.statementEnd afterExpression)

/-- An initial value. -/
def initializer (c : Setting) : R := .seq equals (s (.expression c))

/-- A spread element. -/
def spread : R := named "spread_element" (.seq (p "...") inner)

/-- A rule before a colon. What would take the colon for the beginning of a type must not, where
it leaves no colon. -/
def untilColon (a : Setting → R) : R := .before (a .brackets) (p ":") (a .colon)

/-- Nothing, where a brace and a word that begins a statement do not follow: they begin a block. -/
def noBlock : R := .notAhead (.seq (p "\x7b") (any (statementWords.map .word)))

/-- A decorator. -/
def decorator : R :=
  let callee := all [pathName, opt (.seq (opt (s .typeArguments)) (s .arguments))]
  named "decorator" (.seq (p "@") (.alt (parens callee) callee))

end Grammar

end SnippetGate.Tsx
