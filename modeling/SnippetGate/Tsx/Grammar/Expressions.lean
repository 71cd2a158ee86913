import SnippetGate.Tsx.Grammar.Basic

/-!
# Expressions and patterns

Operators are read from left to right without regard to their rank, since nothing here depends on
it. What follows an operand directly belongs to it as long as it can.
-/

namespace SnippetGate.Tsx.Grammar

open Rule

/-- Nothing, where an expression can go on: in brackets everywhere, else on the same line. -/
def goesOn (c : Setting) : R := if c.enclosed then .empty else .sameLine

/-! ### Patterns -/

/-- A pattern that takes a value apart. -/
def destructuring : R :=
  .alt (.node .arrayPattern (brackets (sparseList (s .element))))
    (named "object_pattern" (braces (sparseList (any [
      named "rest_pattern" (.seq (p "...") (s .pattern)),
      named "pair_pattern" (all [s .propertyName, p ":", s .element]),
      s .element]))))

/-- What a declaration gives names to. -/
def binding : R := .alt anyName (s .destructuring)

/-- An access to a member. -/
def memberAccess : R :=
  .alt (.wrap (.other "member_expression") none (.seq (p ".") (.alt property privateName)))
    (.wrap (.other "subscript_expression") none (brackets inners))

/-- A mark that a value is there. -/
def presence (c : Setting) : R :=
  .wrap (.other "non_null_expression") none
    (all [goesOn c, p "!", .notAhead (.glued ['='])])

/-- A pattern: names, or a place that can be assigned to. -/
def pattern : R :=
  .alt (s .destructuring)
    (.isolate (.seq anyName (.many (.alt memberAccess (presence .brackets)))))

/-- A part of a pattern, perhaps with a value for when there is none. -/
def element : R :=
  .alt (named "rest_pattern" (.seq (p "...") (s .pattern)))
    (.isolate (.seq (s .pattern)
      (opt (.wrap (.other "assignment_pattern") none (initializer .brackets)))))

/-- A parameter list. -/
def parameters : R :=
  named "formal_parameters" (parens (list (named "required_parameter" (all [
    .many decorator,
    .many (modifier ["public", "private", "protected", "readonly", "override"]),
    opt (p "..."), s .pattern, opt (p "?"), opt (s .typeSuffix),
    opt (initializer .brackets)]))))

/-! ### Functions -/

/-- The body of an arrow function. -/
def arrowBody (c : Setting) : R :=
  .seq (p "=>") (.field .body (.alt (s .block) (.seq noBlock (s (.expression c)))))

/-- An arrow function. -/
def arrow (c : Setting) : R :=
  let result := if c.beforeColon then .empty else opt (.seq (p ":") (s .typeResult))
  .node .arrowFunction <| any [
    all [kw "async", goesOn c, reference, arrowBody c],
    .seq reference (arrowBody c),
    all [opt (kw "async"), opt (s .typeParameters), s .parameters, result, arrowBody c]]

/-- A function as an expression. -/
def functionExpression (c : Setting) : R :=
  let async := opt (.seq (kw "async") (goesOn c))
  .seq (ahead (.seq async (kw "function"))) (.alt
    (.node .functionExpression (all [async, kw "function", opt anyName, s .functionRest,
      .field .body (s .block)]))
    (named "generator_function" (all [async, kw "function", p "*", opt anyName,
      s .functionRest, .field .body (s .block)])))

/-! ### Operands -/

/-- What can begin an operand after a type in angle brackets, so that the brackets are operators. -/
def operandStart : R :=
  let simple := any [.lexeme .token (nameExcept? infixWords), number, string, p "\x7b", p "[",
    p "(", p "~", p "#", p "\x60"]
  any [simple, .seq (any [p "!", p "++", p "--"]) simple, s .markup]

/-- Types in angle brackets after an operand, for a call or for themselves. -/
def instantiation (c : Setting) : R :=
  let stands := .notAhead operandStart
  all [s .typeArguments, .notAhead (.alt (.glued ['>']) (.glued ['='])),
    .alt
      (.wrap .callExpression (some .function)
        (.field .arguments (.alt (s .arguments) (s .template))))
      (.wrap (.other "instantiation_expression") none
        (if c.enclosed then stands else .alt (.notAhead .sameLine) stands))]

/-- What can follow the question mark and the point of an optional access. -/
def optionalAccess : R :=
  any [.wrap .callExpression (some .function)
      (all [p "?.", opt (s .typeArguments), .field .arguments (s .arguments)]),
    .wrap (.other "subscript_expression") none (.seq (p "?.") (brackets inners)),
    .wrap (.other "member_expression") none (.seq (p "?.") (.alt property privateName))]

/-- What can follow an operand directly. -/
def suffix (c : Setting) : R :=
  any [memberAccess,
    .wrap .callExpression (some .function) (.field .arguments (s .arguments)),
    optionalAccess,
    .wrap .callExpression (some .function) (.field .arguments (s .template)),
    instantiation c,
    presence c]

/-- The creation of an object. -/
def newExpression (c : Setting) : R :=
  named "new_expression" (.seq (kw "new") (.alt (.seq (p ".") property)
    (all [.isolate (.seq (s (.primary c)) (.many (any [memberAccess, presence c,
        .wrap (.other "member_expression") none (.seq (p "?.") (.alt property privateName))]))),
      opt (s .typeArguments), opt (s .arguments)])))

/-- An operand without prefix and suffix operators. -/
def primary (c : Setting) : R :=
  any [
    functionExpression c, arrow c,
    reference, number, string,
    named "parenthesized_expression" (parens (.seq inners (opt (s .typeSuffix)))),
    s .markup, s .object,
    named "array" (brackets (sparseList (.alt spread inner))),
    s .template,
    .lexeme (.other "regex") regex?,
    named "literal" (anyWord ["this", "super", "null", "true", "false"]),
    newExpression c,
    named "class" (all [.many decorator, kw "class",
      opt (.seq (.notAhead (anyWord ["extends", "implements"])) anyName), s .classRest]),
    .seq (named "import" (kw "import")) (ahead (.alt (p "(") (p "."))),
    .seq privateName (ahead (kw "in")),
    wordAsName "new"]

/-- An operand with what follows it directly. -/
def chain (c : Setting) : R := .isolate (.seq (s (.primary c)) (.many (suffix c)))

/-- An expression that hands out a value. -/
def yieldExpression (c : Setting) : R :=
  named "yield_expression" (.seq (kw "yield")
    (.alt (.seq (p "*") (s (.expression c))) (opt (.seq (goesOn c) (s (.expression c))))))

/-- An operand with a suffix operator, and what follows that directly. -/
def update (c : Setting) : R :=
  .seq (.wrap (.other "update_expression") none (.seq (goesOn c) (.alt (p "++") (p "--"))))
    (.many (suffix c))

/-- An operand after its prefix operators, with its suffix operators. -/
def unary (c : Setting) : R :=
  any [
    named "update_expression" (.seq (.alt (p "++") (p "--")) (s (.unary c))),
    named "unary_expression" (.seq (any [p "!", p "~", p "-", p "+", kw "typeof", kw "void",
      kw "delete"]) (s (.unary c))),
    named "await_expression" (.seq (kw "await") (s (.unary c))),
    yieldExpression c,
    named "internal_module" (all [kw "namespace", goesOn c, .alt string pathName,
      opt (s .block)]),
    .isolate (.seq (s (.chain c)) (opt (update c)))]

/-- The kinds of expressions that can be assigned to. -/
def assignable : List NodeKind :=
  [.identifier, .other "member_expression", .other "subscript_expression",
    .other "non_null_expression", .other "array", .other "object",
    .other "parenthesized_expression"]

/-- An operand, which may assign. A pattern that is no expression must. -/
def operand (c : Setting) : R :=
  .alt
    (.isolate (.seq (s (.unary c))
      (opt (.seq (.after assignable)
        (.wrap (.other "assignment_expression") none
          (.seq (.lexeme .token assignmentOperator?) (s (.expression c))))))))
    (named "assignment_expression" (.seq (s .destructuring) (initializer c)))

/-! ### Operations -/

/-- A type that an expression is said to have, with what follows. -/
def typed (c : Setting) : R :=
  .seq
    (.wrap (.other "as_expression") none
      (all [goesOn c, anyWord ["as", "satisfies"], s .type]))
    (.many (suffix c))

/-- Operands with operators between them. -/
def operation (c : Setting) : R :=
  let words := if c.inHead then ["instanceof"] else ["instanceof", "in"]
  .isolate (.seq (s (.operand c)) (.many (any [
    .wrap (.other "binary_expression") none
      (.seq (.lexeme .token (operator? binaryOperators)) (s (.operand c))),
    .wrap (.other "binary_expression") none (.seq (anyWord words) (s (.operand c))),
    typed c])))

/-- Any expression: an operation, or a choice between two expressions after it. -/
def expression (c : Setting) : R :=
  let chosen :=
    if c.beforeColon then s (.expression .colon) else untilColon fun d => s (.expression d)
  .isolate (.seq (s (.operation c))
    (opt (.wrap (.other "ternary_expression") none
      (all [p "?", chosen, p ":", s (.expression c)]))))

/-! ### Parts of expressions -/

/-- The arguments of a call. -/
def arguments : R := named "arguments" (parens (sparseList (.alt spread inner)))

/-- A template. -/
def template : R :=
  named "template_string" (all [p "\x60",
    .many (.alt (.gluedLexeme .token templateText?)
      (named "template_substitution" (all [.glued "$\x7b".toList, inners, p "\x7d"]))),
    .glued ['\x60']])

/-- The name of a property where it is defined. -/
def propertyName : R :=
  any [property, string, number,
    named "computed_property_name" (brackets inner), privateName]

/-- A method up to its body. -/
def method : R :=
  all [opt (p "*"), s .propertyName, opt (p "?"), s .functionRest]

/-- An object. -/
def object : R :=
  named "object" (braces (sparseList (any [spread,
    named "pair" (all [s .propertyName, p ":", inner]),
    named "method_definition" (all [.many (modifier ["public", "private", "protected", "static",
      "override", "readonly", "async", "get", "set"]), s .method, s .block]),
    anyName])))

end SnippetGate.Tsx.Grammar
