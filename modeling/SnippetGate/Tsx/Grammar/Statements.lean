import SnippetGate.Tsx.Grammar.Expressions

/-!
# Statements and declarations

The grammar does not care whether names are declared once, or where a value is returned.
-/

namespace SnippetGate.Tsx.Grammar

open Rule

/-- Expressions directly in a statement. -/
def outers : R := expressions .statement

/-- A condition in parentheses. -/
def condition : R :=
  named "parenthesized_expression" (parens (.seq inners (opt (s .typeSuffix))))

/-- A condition in parentheses with what it is about. -/
def conditioned (a : R) : R := all [condition, .remarks, a]

/-! ### Control -/

/-- A conditional statement. -/
def ifStatement : R :=
  .node .ifStatement <| all [kw "if", .field .condition condition, .remarks,
    .field .consequence (s .statement),
    optUnless "else" (.field .alternative (.node .elseClause (.seq (kw "else") (s .statement))))]

/-- The head of a loop over the elements or keys of a value. -/
def eachHead : R :=
  let through (a : R) : R := all [a, anyWord ["in", "of"], inners, p ")"]
  any [
    through (all [kw "var", binding, opt (initializer .loopHead)]),
    through (.seq (anyWord ["const", "let"]) binding),
    through (.seq (s (.chain .brackets)) (.after assignable)),
    through (s .destructuring)]

/-- The head of a loop with a condition. -/
def countingHead : R :=
  let part := .alt (p ";") (.seq outers (semicolon true))
  all [.alt (.seq (anyWord ["const", "let", "var"]) (s .declarators)) part, part, opt inners,
    p ")"]

/-- A loop with a head. -/
def forStatement : R :=
  named "for_statement" (all [kw "for", opt (kw "await"), p "(", .alt eachHead countingHead,
    .remarks, s .statement])

/-- A loop with a condition in front. -/
def whileStatement : R :=
  named "while_statement" (.seq (kw "while") (conditioned (s .statement)))

/-- A loop with a condition at its end. -/
def doStatement : R :=
  named "do_statement" (all [kw "do", s .statement, kw "while", condition, opt (p ";")])

/-- A statement under a subject. -/
def withStatement : R :=
  named "with_statement" (.seq (kw "with") (conditioned (s .statement)))

/-- A choice between cases. -/
def switchStatement : R :=
  named "switch_statement" (all [kw "switch",
    conditioned (braces (.many (.seq
      (.alt (all [kw "case", untilColon expressions, p ":"]) (.seq (kw "default") (p ":")))
      (.many (s .statement))))),
    .remarks])

/-- A statement that catches errors. -/
def tryStatement : R :=
  named "try_statement" (all [kw "try", s .block,
    optUnless "catch" (all [kw "catch", opt (parens (.seq binding (opt (s .typeSuffix)))),
      s .block]),
    optUnless "finally" (.seq (kw "finally") (s .block))])

/-- A jump to a label or out of the innermost loop. -/
def jumpStatement : R :=
  named "jump_statement" (.seq (anyWord ["break", "continue"])
    (.alt (.statementEnd false) (.seq (opt anyName) (semicolon false))))

/-- A statement that returns. -/
def returnStatement : R :=
  named "return_statement" (.seq (kw "return")
    (any [.statementEnd false, .seq outers (semicolon true), p ";"]))

/-- A statement that throws. -/
def throwStatement : R := named "throw_statement" (all [kw "throw", outers, semicolon true])

/-- A statement with a label. -/
def labeledStatement : R :=
  named "labeled_statement" (all [
    .lexeme (.other "statement_identifier") (nameExcept? (expressionWords ++ statementWords)),
    p ":", s .statement])

/-! ### Declarations -/

/-- Declared variables, up to the end of the statement. A semicolon is left out more freely after a
variable without a value. -/
def declarators : R :=
  let rest (afterExpression : Bool) : R :=
    .alt (.seq (p ",") (s .declarators)) (semicolon afterExpression)
  let valued := .node .variableDeclarator (all [.field .name binding, opt (s .typeSuffix), equals,
    .field .value (s (.expression .statement))])
  let plain := .node .variableDeclarator (.alt
    (all [.field .name anyName, p "!", s .typeSuffix])
    (.seq (.field .name binding) (opt (s .typeSuffix))))
  .alt (.seq valued (rest true)) (.seq plain (rest false))

/-- The declaration of variables. -/
def variableStatement : R :=
  named "lexical_declaration" (.seq (anyWord ["const", "let", "var"]) (s .declarators))

/-- The declaration of a function, whose first word may have to stand on the line of the second. -/
def functionStatement (gap : R) : R :=
  let head := all [opt (.seq (kw "async") gap), kw "function"]
  any [
    .node .functionDeclaration (all [head, .field .name anyName, s .functionRest,
      .field .body (s .block)]),
    named "generator_function_declaration" (all [head, p "*", .field .name anyName,
      s .functionRest, .field .body (s .block)]),
    named "function_signature" (all [head, .field .name anyName, s .functionRest,
      semicolon false])]

/-- The name of a class. -/
def className : R :=
  .lexeme .identifier (nameExcept? (["extends", "implements"].map String.toList))

/-- The declaration of a class. -/
def classStatement : R :=
  named "class_declaration" (all [.many decorator, opt (kw "abstract"), kw "class",
    className, s .classRest])

/-- The parent of a class. It ends before the members of the class. -/
def parentClass : R :=
  .before (.seq (s (.chain .brackets)) (opt (s .typeArguments)))
    (any [p "\x7b", p ",", kw "implements"])
    (.seq inner (opt (s .typeArguments)))

/-- A class after its name. -/
def classRest : R :=
  all [opt (s .typeParameters),
    opt (.seq (kw "extends") (list1 parentClass)),
    opt (.seq (kw "implements") (list1 (s .type))),
    braces (.many (s .classMember)),
    opt (.statementEnd false)]

/-- A member of a class. A decorator stands before the member that it belongs to. -/
def classMember : R :=
  let ending (afterExpression : Bool) : R := .alt (p ",") (semicolon afterExpression)
  let field : R := all [s .propertyName, opt (.alt (p "?") (p "!")), opt (s .typeSuffix)]
  any [p ";", decorator, .seq (kw "static") (s .block),
    .seq
      (.many (modifier ["static", "public", "private", "protected", "readonly", "abstract",
        "override", "declare", "accessor", "async", "get", "set"]))
      (any [
        .seq (s .method) (.alt (s .block) (ending false)),
        all [p "[", anyName, p ":", s .type, p "]", s .typeSuffix, ending false],
        all [field, initializer .statement, ending true],
        .seq field (ending false)])]

/-- The declaration of an interface. -/
def interfaceStatement : R :=
  named "interface_declaration" (all [kw "interface", anyName, opt (s .typeParameters),
    opt (.seq (kw "extends") (list1 (s .type))), s .objectType, .remarks])

/-- The declaration of a name for a type. -/
def typeStatement : R :=
  named "type_alias_declaration" (all [kw "type", .sameLine, anyName, opt (s .typeParameters),
    p "=", s .type, semicolon false])

/-- The declaration of an enumeration. -/
def enumStatement : R :=
  named "enum_declaration" (all [opt (kw "const"), kw "enum", anyName,
    braces (list (.seq (s .propertyName) (opt (initializer .brackets)))), .remarks])

/-- A namespace. -/
def moduleStatement : R :=
  named "module" (all [anyWord ["namespace", "module"], .sameLine, .alt string pathName,
    opt (s .block)])

/-- A declaration for the checker alone. -/
def ambientStatement : R :=
  named "ambient_declaration" (all [kw "declare", .sameLine, any [s .declaration,
    .seq (kw "global") (s .block),
    all [kw "module", p ".", anyName, p ":", s .type, semicolon false]]])

/-- A short name for a member of a namespace. -/
def importAlias : R :=
  named "import_alias" (all [kw "import", anyName, p "=", pathName, semicolon false])

/-- Any declaration. -/
def declaration : R :=
  any [enumStatement, variableStatement, functionStatement .sameLine, classStatement,
    interfaceStatement, typeStatement, ambientStatement, moduleStatement, importAlias]

/-! ### Modules -/

/-- A name of a module's member. -/
def memberName : R := .alt anyName string

/-- A list of exported or imported names, some of which may be types. -/
def nameList : R :=
  let renamed := all [memberName, kw "as", memberName]
  let typeWord := anyWord ["type", "typeof"]
  let ended (a : R) : R := .seq a (ahead (.alt (p ",") (p "\x7d")))
  braces (list (any [ended (.seq typeWord renamed), ended (.seq typeWord memberName),
    ended renamed, memberName]))

/-- The module that names come from, with what is said about it. -/
def moduleSource : R :=
  .seq string (opt (all [.sameLine, anyWord ["with", "assert"], s .object]))

/-- An import. -/
def importStatement : R :=
  let space := all [p "*", kw "as", anyName]
  let clause := any [space, nameList, .seq anyName (opt (.seq (p ",") (.alt space nameList)))]
  let source := any [moduleSource, all [clause, kw "from", moduleSource],
    all [anyName, p "=", kw "require", parens string]]
  named "import_statement" (all [kw "import", .notAhead (.alt (p "(") (p ".")),
    .alt (.seq (anyWord ["type", "typeof"]) (.seq source (semicolon false)))
      (.seq source (semicolon false))])

/-- An export. -/
def exportStatement : R :=
  let source := .seq (kw "from") moduleSource
  named "export_statement" (.alt
    (.seq (kw "export") (any [
      all [opt (kw "type"), p "*", opt (.seq (kw "as") memberName), source, semicolon false],
      all [opt (kw "type"), nameList, opt source, semicolon false],
      all [equals, s (.expression .statement), semicolon true],
      all [kw "as", kw "namespace", anyName, semicolon false]]))
    (all [.many decorator, kw "export",
      .alt (.seq (kw "default")
          (.alt (s .declaration) (.seq (s (.expression .statement)) (semicolon true))))
        (.alt (functionStatement .empty) (s .declaration))]))

/-! ### Any statement -/

/-- The beginning of the declaration of a function or a class with a name. -/
def namedDeclaration : R :=
  .alt (all [opt (.seq (kw "async") .sameLine), kw "function", opt (p "*"), anyName])
    (.seq (kw "class") className)

/-- An expression as a statement. What begins like a declaration is none. -/
def expressionStatement : R :=
  named "expression_statement" (all [.notAhead (any (statementWords.map .word)),
    .notAhead namedDeclaration, noBlock, outers, semicolon true])

/-- Any statement. -/
def statement : R :=
  any [s .block, ifStatement, returnStatement, s .declaration, throwStatement, forStatement,
    whileStatement, doStatement, switchStatement, tryStatement, jumpStatement, importStatement,
    exportStatement, withStatement,
    named "debugger_statement" (.seq (kw "debugger") (semicolon false)),
    named "empty_statement" (p ";"),
    labeledStatement, expressionStatement]

end SnippetGate.Tsx.Grammar
