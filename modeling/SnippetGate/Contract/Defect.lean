import SnippetGate.Balance.Issue
import SnippetGate.Denylist

/-!
# Defects

Why a text is rejected. A defect belongs to a category, has an identifier, and is worded for the
reader.
-/

namespace SnippetGate

/-- The categories of defects. -/
inductive DefectCategory where
  | security
  | structural
  | truncation
  deriving DecidableEq, Repr

/-- The identifier of a category of defects. -/
def DefectCategory.id : DefectCategory → Text
  | security => "SecurityViolation".toList
  | structural => "StructuralDefect".toList
  | truncation => "UnrecoverableTruncation".toList

/-- Why a text is rejected. -/
inductive Defect where
  /-- It holds denied code. -/
  | denied (violation : Violation)
  /-- There is nothing in it. -/
  | emptyInput
  /-- It is longer than the bound. -/
  | inputTooLarge (length : Nat) (bound : Int)
  /-- The entry point is not declared. -/
  | missingEntryPoint (entry : Text)
  /-- The entry point has parameters. -/
  | entryPointParameters (entry : Text)
  /-- The entry point is declared several times. -/
  | duplicateEntryPoint (entry : Text) (found : Nat)
  /-- The entry point is not mounted. -/
  | missingMount (call : Text)
  /-- The entry point is mounted several times. -/
  | duplicateMount (call : Text) (found : Nat)
  /-- Something follows the mount call. -/
  | mountNotTerminal (call : Text)
  /-- No markup is returned. -/
  | missingMarkupReturn
  /-- Something is imported. -/
  | importDeclaration
  /-- Something is exported. -/
  | exportDeclaration
  /-- It shows a signature of corruption. -/
  | corruption (description : Text)
  /-- Its delimiters are not balanced. -/
  | unbalanced (issue : Issue)
  /-- It was cut off, and closing what was open did not help. -/
  | truncatedOutput
  deriving DecidableEq, Repr

namespace Defect

/-- The category of a defect. -/
def category : Defect → DefectCategory
  | denied _ => .security
  | truncatedOutput => .truncation
  | _ => .structural

/-- The identifier of a defect. -/
def kind : Defect → Text
  | denied v => v.category.id
  | emptyInput => "empty_input".toList
  | inputTooLarge _ _ => "input_too_large".toList
  | missingEntryPoint _ => "missing_entry_point".toList
  | entryPointParameters _ => "entry_point_parameters".toList
  | duplicateEntryPoint _ _ => "duplicate_entry_point".toList
  | missingMount _ => "missing_mount".toList
  | duplicateMount _ _ => "duplicate_mount".toList
  | mountNotTerminal _ => "mount_not_terminal".toList
  | missingMarkupReturn => "missing_jsx_return".toList
  | importDeclaration => "module_declaration".toList
  | exportDeclaration => "module_declaration".toList
  | corruption _ => "corruption_signature".toList
  | unbalanced _ => "unbalanced_delimiters".toList
  | truncatedOutput => "truncated_output".toList

/-- The declaration of an entry point, as it is quoted in messages. -/
def quotedDeclaration (entry : Text) : Text := "\x27function ".toList ++ entry ++ "()\x27".toList

/-- A call, as it is quoted in messages. -/
def quotedCall (call : Text) : Text := '\x27' :: call ++ ['\x27']

/-- The wording of a defect. -/
def message : Defect → Text
  | denied v =>
    "Dangerous pattern detected: ".toList ++ v.category.label ++ " (".toList ++
      Text.trim v.fragment ++ [')']
  | emptyInput => "Generated code is empty".toList
  | inputTooLarge length bound =>
    "Generated code is too large (".toList ++ Text.ofNat length ++ " > ".toList ++
      Text.ofInt bound ++ " characters)".toList
  | missingEntryPoint entry =>
    "Component must have a ".toList ++ quotedDeclaration entry ++ " declaration".toList
  | entryPointParameters entry =>
    "Function must be declared as ".toList ++ quotedDeclaration entry ++
      " with no parameters".toList
  | duplicateEntryPoint entry found =>
    "Component must declare ".toList ++ quotedDeclaration entry ++
      " exactly once (found ".toList ++ Text.ofNat found ++ [')']
  | missingMount call => "Component must end with ".toList ++ quotedCall call
  | duplicateMount call found =>
    quotedCall call ++ " must appear exactly once (found ".toList ++ Text.ofNat found ++ [')']
  | mountNotTerminal call => "Nothing may follow the ".toList ++ quotedCall call ++ " call".toList
  | missingMarkupReturn => "Component must return JSX".toList
  | importDeclaration => "Snippets must not contain import statements".toList
  | exportDeclaration => "Snippets must not contain export statements".toList
  | corruption description => description
  | unbalanced issue => issue.message
  | truncatedOutput =>
    "Generated code was truncated and could not be closed into a valid component".toList

/-- A defect as one line: its category and its wording. -/
def line (d : Defect) : Text := d.category.id ++ ": ".toList ++ d.message

end Defect

end SnippetGate
