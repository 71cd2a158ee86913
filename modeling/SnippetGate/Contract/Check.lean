import SnippetGate.Balance.Scan
import SnippetGate.Contract.Corruption
import SnippetGate.Contract.Defect
import SnippetGate.Contract.Vocabulary

/-!
# Checking the contract

A snippet is accepted if it declares the entry point once and without parameters, mounts it once
and at the very end, returns markup, has no imports or exports, shows no signature of corruption,
and is balanced. All checks run, and their defects come in that order.
-/

namespace SnippetGate

open Pattern

namespace Contract

/-- What is wrong with the declarations of the entry point. -/
def checkEntryPoint (cfg : Settings) (t : Text) : List Defect :=
  match cfg.entryDeclaration.findAll t with
  | [] => [.missingEntryPoint cfg.entryName]
  | ms =>
    (if ms.all fun m => Text.allBlank (m.group 1) then []
      else [.entryPointParameters cfg.entryName]) ++
    (if ms.length > 1 then [.duplicateEntryPoint cfg.entryName ms.length] else [])

/-- What is wrong with the mount calls. -/
def checkMount (cfg : Settings) (t : Text) : List Defect :=
  let ms := cfg.mountCall.findAll t
  match ms.getLast? with
  | none => [.missingMount cfg.mountExpression]
  | some last =>
    (if ms.length > 1 then [.duplicateMount cfg.mountExpression ms.length] else []) ++
    (if Text.allBlank last.last.cursor.after then [] else [.mountNotTerminal cfg.mountExpression])

/-- The keyword that returns a value. -/
def returnWord : Pattern := all [.wordEdge, word "return", .wordEdge]

/-- What is wrong with the returned value. -/
def checkReturn (t : Text) : List Defect :=
  if returnWord.occursIn t && t.contains '<' then [] else [.missingMarkupReturn]

/-- A word that begins a line. -/
def leadingWord (w : String) : Pattern := all [.lineStart, blanks, word w, .wordEdge]

/-- What is imported and exported. -/
def checkModule (t : Text) : List Defect :=
  (if (leadingWord "import").occursIn t then [.importDeclaration] else []) ++
  (if (leadingWord "export").occursIn t then [.exportDeclaration] else [])

/-- The signatures of corruption that the text shows. -/
def checkSignatures (t : Text) : List Defect :=
  Signature.catalogue.filterMap fun s => (s.detect t).map fun fragment =>
    .corruption (s.describe fragment)

/-- What is wrong with the balance of the text. -/
def checkBalance (t : Text) : List Defect := (Scan.ofText t).issues.map .unbalanced

/-- All that is wrong with a text. -/
def defects (cfg : Settings) (t : Text) : List Defect :=
  checkEntryPoint cfg t ++ checkMount cfg t ++ checkReturn t ++ checkModule t ++
    checkSignatures t ++ checkBalance t

/-- Whether a text fulfils the contract. -/
def accepts (cfg : Settings) (t : Text) : Bool := (defects cfg t).isEmpty

/-- An observation that does not stand in the way of acceptance. -/
inductive Warning where
  | consoleCall
  | inlineStyle
  deriving DecidableEq, Repr

/-- The wording of a warning. -/
def Warning.message : Warning → Text
  | consoleCall => "Console logging left in generated code".toList
  | inlineStyle => "Inline style objects found; Tailwind classes are expected".toList

/-- A call that writes to the console. -/
def consoleCall : Pattern :=
  all [.wordEdge, word "console.",
    any [word "log", word "debug", word "info", word "warn", word "error"], blanks, char '(']

/-- A style attribute with an object. -/
def inlineStyle : Pattern :=
  all [.wordEdge, word "style", blanks, char '=', blanks, word "\x7b\x7b"]

/-- The warnings about a text. -/
def warnings (t : Text) : List Warning :=
  (if consoleCall.occursIn t then [.consoleCall] else []) ++
  (if inlineStyle.occursIn t then [.inlineStyle] else [])

end Contract

end SnippetGate
