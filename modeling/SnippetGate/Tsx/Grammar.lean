import SnippetGate.Tsx.Grammar.Markup
import SnippetGate.Tsx.Grammar.Statements
import SnippetGate.Tsx.Grammar.Types

/-!
# The grammar of typed script with markup

The rules of all symbols, and the parser that they give. The parser keeps what the repairs look at:
statements, functions, patterns and calls.
-/

namespace SnippetGate.Tsx.Grammar

open Rule

/-- The rules of the grammar. -/
def rules : Symbol → R
  | .program => named "program" (.seq (opt (.lexeme .token hashBang?)) (.many (s .statement)))
  | .statement => statement
  | .declaration => declaration
  | .block =>
    .seq (.node .statementBlock (braces (.many (s .statement)))) (opt (.statementEnd false))
  | .declarators => declarators
  | .functionRest =>
    all [opt (s .typeParameters), s .parameters, opt (.seq (p ":") (s .typeResult))]
  | .classRest => classRest
  | .classMember => classMember
  | .destructuring => destructuring
  | .pattern => pattern
  | .element => element
  | .parameters => parameters
  | .expression c => expression c
  | .operation c => operation c
  | .operand c => operand c
  | .unary c => unary c
  | .chain c => chain c
  | .primary c => primary c
  | .arguments => arguments
  | .template => template
  | .object => object
  | .propertyName => propertyName
  | .method => method
  | .markup => markup
  | .markupExpression => markupExpression
  | .type => type
  | .typeSuffix => .seq (p ":") (s .type)
  | .typeResult => typeResult
  | .typeArguments => typeArguments
  | .typeParameters => typeParameters
  | .unionType => unionType
  | .objectType => objectType
  | .typeMember => typeMember

/-- The rule depth for one character, with room to spare. -/
def fuelPerChar : Nat := 600

/-- The tree of a program, unless some part of it fits nowhere. -/
def tree? (t : Text) : Option Node :=
  match (s .program).read rules (fuelPerChar * (t.length + 2)) (.start t) with
  | none => none
  | some r => if r.here.rest.isEmpty then (r.out.filter (!·.isExtra)).head? else none

/-- The tree that stands for a program that does not fit the grammar. -/
def brokenTree : Tree := ⟨.mk (.other "ERROR") none ⟨0, 0, 0⟩ [], true⟩

/-- The parser of this grammar. It never fails, but says whether the program fits. -/
def parser : Parser := fun bs =>
  match bs.toText? with
  | none => .ok brokenTree
  | some t =>
    match tree? t with
    | none => .ok brokenTree
    | some n => .ok ⟨n, false⟩

end SnippetGate.Tsx.Grammar
