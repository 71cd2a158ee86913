import SnippetGate.Pattern.Search
import SnippetGate.Settings

/-!
# The words of the contract

How a snippet declares its entry point and mounts it: patterns for the declaration, for the
declaration with the brace of its body, and for the mount call.
-/

namespace SnippetGate.Settings

open Pattern

/-- Where neither a name nor a member access goes on. -/
def freshCallee : Pattern := .notAfter fun c => isNameChar c || c == '.'

/-- The declaration of the entry point. Its first group is the parameter list. -/
def entryDeclaration (cfg : Settings) : Pattern :=
  all [.wordEdge, word "function", gap, text cfg.entryName, blanks, char '(',
    .group 1 (many (· != ')')), char ')']

/-- The declaration of the entry point up to the brace of its body. A type may stand between. -/
def entryOpening (cfg : Settings) : Pattern :=
  all [.wordEdge, word "function", gap, text cfg.entryName, blanks, char '(', many (· != ')'),
    char ')', blanks,
    opt (all [char ':', blanks, few1 fun c => c != '{' && c != ';']),
    blanks, char '{']

/-- A call of the mount function on a component of the given name. -/
def mountOf (cfg : Settings) (name : Pattern) : Pattern :=
  all [freshCallee, text cfg.mountFunction, char '(', blanks, char '<', blanks, name, blanks,
    word "/>", blanks, char ')']

/-- The call that mounts the entry point, with its semicolon. -/
def mountCall (cfg : Settings) : Pattern :=
  all [mountOf cfg (text cfg.entryName), blanks, opt (char ';')]

/-- The element that shows the entry point. -/
def entryElement (cfg : Settings) : Text := '<' :: cfg.entryName ++ " />".toList

/-- The mount call in its standard form, without the semicolon. -/
def mountExpression (cfg : Settings) : Text :=
  cfg.mountFunction ++ '(' :: entryElement cfg ++ [')']

/-- The mount call in its standard form. -/
def canonicalMount (cfg : Settings) : Text := mountExpression cfg ++ [';']

end SnippetGate.Settings
