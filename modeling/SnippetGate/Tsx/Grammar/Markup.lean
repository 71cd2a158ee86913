import SnippetGate.Tsx.Grammar.Basic

/-!
# Markup

Elements and fragments. The grammar does not care under which name an element is closed, or
whether under any.
-/

namespace SnippetGate.Tsx.Grammar

open Rule

/-- A name in markup, perhaps with a namespace. -/
def markupName (kind : NodeKind) : R :=
  .seq (.lexeme kind hyphenated?) (opt (.seq (p ":") (.lexeme kind hyphenated?)))

/-- The name of an element. -/
def elementName : R :=
  .seq (markupName .identifier) (.many (.seq (p ".") anyName))

/-- The content of an element. -/
def markupContent : R :=
  .seq (.many (.seq .remarks (any [.gluedLexeme (.other "jsx_text") markupText?,
    s .markupExpression, s .markup, .lexeme (.other "jsx_text") markupText?]))) .remarks

/-- An attribute. -/
def markupAttribute : R :=
  .seq .remarks (.alt (s .markupExpression)
    (named "jsx_attribute" (.seq (markupName (.other "property_identifier"))
      (opt (.seq (p "=") (any [string, s .markupExpression, s .markup]))))))

/-- An element or a fragment. -/
def markup : R :=
  named "jsx_element" (all [p "<", .notAhead (.glued ['/', '>']),
    opt (all [elementName, opt (s .typeArguments), .many markupAttribute, .remarks]),
    .alt (p "/>") (all [p ">", markupContent, p "</", opt elementName, .remarks, p ">"])])

/-- An expression in braces. -/
def markupExpression : R :=
  named "jsx_expression" (braces (opt (.alt spread inners)))

end SnippetGate.Tsx.Grammar
