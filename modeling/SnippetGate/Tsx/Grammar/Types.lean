import SnippetGate.Tsx.Grammar.Basic

/-!
# Types

Types, the parameters and arguments of generic ones, and the members of object types.
-/

namespace SnippetGate.Tsx.Grammar

open Rule

/-- A bar between types. -/
def bar : R := .seq (p "|") (.notAhead (.glued ['|']))

/-- An ampersand between types. -/
def ampersand : R := .seq (p "&") (.notAhead (.glued ['&']))

/-- A list of types in angle brackets. -/
def typeArguments : R := all [p "<", list1 (s .type), opt (p ","), p ">"]

/-- The parameters of a generic type or function. -/
def typeParameters : R :=
  all [p "<", list1 (all [opt (modifier ["const", "in", "out"]), anyName,
    opt (.seq (.alt (kw "extends") (p ":")) (s .type)), opt (.seq (p "=") (s .type))]),
    opt (p ","), p ">"]

/-- A claim that a name has a type. -/
def predicate : R := all [anyName, .sameLine, kw "is", s .type]

/-- The type of a result. It may be a claim about a name. -/
def typeResult : R :=
  any [.seq (kw "asserts") (.alt predicate (.seq (.notAhead (kw "is")) anyName)), predicate,
    s .type]

/-- A member of a tuple. -/
def tupleMember : R :=
  .seq (opt (p "..."))
    (.alt (all [anyName, opt (p "?"), s .typeSuffix]) (.seq (s .type) (opt (p "?"))))

/-- A template of types. -/
def templateType : R :=
  named "template_literal_type" (all [p "\x60",
    .many (.alt (.gluedLexeme .token templateText?)
      (all [.glued "$\x7b".toList, s .type, p "\x7d"])),
    .glued ['\x60']])

/-- The type of a value. -/
def typeQuery : R :=
  all [kw "typeof", .alt (.seq (kw "import") (s .arguments)) anyName,
    .many (.seq (p ".") (.alt anyName privateName)), opt (s .typeArguments)]

/-- Index types after a type. -/
def indexed (a : R) : R := .seq a (.many (all [.sameLine, p "[", opt (s .type), p "]"]))

/-- A type without operators. -/
def plainType : R :=
  any [
    parens (s .type),
    s .objectType,
    brackets (.seq (opt (list1 tupleMember)) (opt (p ","))),
    string, number, .seq (.alt (p "-") (p "+")) number, templateType, p "*",
    typeQuery,
    .seq (kw "unique") (kw "symbol"),
    all [kw "import", s .arguments, .many (.seq (p ".") anyName), opt (s .typeArguments)],
    .seq pathName (opt (s .typeArguments))]

/-- The type of a function or a constructor. -/
def functionType : R :=
  .alt
    (all [opt (s .typeParameters), s .parameters, p "=>", s .typeResult])
    (all [opt (kw "abstract"), kw "new", opt (s .typeParameters), s .parameters, p "=>",
      s .type])

/-- A type that takes as much as follows. -/
def openType : R :=
  any [functionType, .seq (kw "readonly") (s .type),
    all [kw "infer", anyName, opt (.seq (kw "extends") (s .type))]]

/-- A type between bars and ampersands. -/
def unionMember : R :=
  .seq (.many (.alt bar ampersand))
    (.alt openType
      (.seq (.many (.alt (p "?") (kw "keyof"))) (indexed plainType)))

/-- Types with bars and ampersands between them. -/
def unionType : R := .seq unionMember (.many (.seq (.alt bar ampersand) unionMember))

/-- Any type. -/
def type : R :=
  named "type" (.seq (s .unionType)
    (opt (all [.sameLine, kw "extends", s .type, p "?", s .type, p ":", s .type])))

/-- The words before the name of a member. -/
def memberModifiers : R :=
  .many (modifier ["public", "private", "protected", "static", "override", "readonly", "async",
    "get", "set"])

/-- An index in brackets, with what it leads to. -/
def indexSignature : R :=
  all [opt (.seq (opt (.alt (p "+") (p "-"))) (modifier ["readonly"])), p "[",
    .alt (all [anyName, p ":", s .type])
      (all [anyName, kw "in", s .type, opt (.seq (kw "as") (s .type))]),
    p "]", opt (.seq (opt (.alt (p "+") (p "-"))) (p "?")), s .typeSuffix]

/-- A member of an object type. -/
def typeMember : R :=
  all [any [
      indexSignature,
      .seq memberModifiers (s .method),
      all [opt (.seq (opt (kw "abstract")) (kw "new")), opt (s .typeParameters), s .parameters,
        opt (.seq (p ":") (s .typeResult))],
      all [memberModifiers, s .propertyName, opt (p "?"), opt (s .typeSuffix)]],
    any [p ",", p ";", ahead (p "\x7d"), ahead (p "|\x7d"), .statementEnd false]]

/-- An object type. -/
def objectType : R :=
  .alt (all [p "\x7b|", opt (.alt (p ",") (p ";")), .many (s .typeMember), p "|\x7d"])
    (all [p "\x7b", opt (.alt (p ",") (p ";")), .many (s .typeMember), p "\x7d"])

end SnippetGate.Tsx.Grammar
