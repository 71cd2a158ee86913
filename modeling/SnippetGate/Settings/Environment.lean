import SnippetGate.Settings
import SnippetGate.Text.Case
import SnippetGate.Text.Numeral

/-!
# Settings from the environment

Each setting has a variable. A variable that is not set leaves the standard in force, one that is
set to the empty text does not. The first bound that is no integer is an error.
-/

namespace SnippetGate.Settings

/-- The variables. -/
def variableNames : List String :=
  ["LS_ENTRY_POINT", "LS_MOUNT_FUNCTION", "LS_TRUSTED_IMPORT", "LS_AST_REPAIR", "LS_AST_LANGUAGE",
    "LS_MAX_CLOSURE_TAGS", "LS_MAX_TAG_FIXES", "LS_MAX_INPUT_CHARS", "LS_DEBUG", "LS_DEBUG_LOG",
    "LS_DEBUG_DUMP_VERBOSE", "LS_DEBUG_DUMP_MAX_LINES", "LS_DEBUG_DUMP_MAX_CHARS"]

/-- A variable, or the standard where it is not set. -/
def textVar (env : Text → Option Text) (name : String) (standard : Text) : Text :=
  (env name.toList).getD standard

/-- Whether a text switches something on. -/
def isOn (t : Text) : Bool := ["1", "true", "yes"].any fun s => s.toList == Text.lower t

/-- A switch. -/
def switchVar (env : Text → Option Text) (name : String) (standard : Bool) : Bool :=
  match env name.toList with
  | none => standard
  | some t => isOn t

/-- A bound. -/
def boundVar (env : Text → Option Text) (name : String) (standard : Int) :
    Except NumeralFault Int :=
  match env name.toList with
  | none => .ok standard
  | some t => Numeral.parse t

/-- The settings under an environment. -/
def ofEnvironment (env : Text → Option Text) : Except NumeralFault Settings := do
  let maxClosureTags ← boundVar env "LS_MAX_CLOSURE_TAGS" standard.maxClosureTags
  let maxTagFixes ← boundVar env "LS_MAX_TAG_FIXES" standard.maxTagFixes
  let maxInputChars ← boundVar env "LS_MAX_INPUT_CHARS" standard.maxInputChars
  let dumpMaxLines ← boundVar env "LS_DEBUG_DUMP_MAX_LINES" standard.dumpMaxLines
  let dumpMaxChars ← boundVar env "LS_DEBUG_DUMP_MAX_CHARS" standard.dumpMaxChars
  return {
    entryName := textVar env "LS_ENTRY_POINT" standard.entryName
    mountFunction := textVar env "LS_MOUNT_FUNCTION" standard.mountFunction
    trustedImport := textVar env "LS_TRUSTED_IMPORT" standard.trustedImport
    treeRepair := switchVar env "LS_AST_REPAIR" standard.treeRepair
    grammar := textVar env "LS_AST_LANGUAGE" standard.grammar
    maxClosureTags := maxClosureTags
    maxTagFixes := maxTagFixes
    maxInputChars := maxInputChars
    debug := switchVar env "LS_DEBUG" standard.debug
    debugLog := textVar env "LS_DEBUG_LOG" standard.debugLog
    dumpVerbose := switchVar env "LS_DEBUG_DUMP_VERBOSE" standard.dumpVerbose
    dumpMaxLines := dumpMaxLines
    dumpMaxChars := dumpMaxChars }

end SnippetGate.Settings
