import SnippetGate.Text.Basic

/-!
# Settings

The names that a snippet has to use, the bounds of the repairs, and what is written to the debug
log. Every part of the library that depends on a setting takes the settings as an argument.
-/

namespace SnippetGate

/-- What can be adjusted from outside. Bounds are integers: a negative one is allowed, and admits
nothing. -/
structure Settings where
  /-- The function that a snippet must declare. -/
  entryName : Text := "GeneratedLesson".toList
  /-- The function that puts the component on the page. -/
  mountFunction : Text := "render".toList
  /-- The one module that a snippet may import. -/
  trustedImport : Text := "react".toList
  /-- Whether the syntax tree repairs run. -/
  treeRepair : Bool := true
  /-- The grammar that the syntax tree repairs ask for. -/
  grammar : Text := "tsx".toList
  /-- How many closing tags may be appended. -/
  maxClosureTags : Int := 6
  /-- How many mismatched tags may be mended. -/
  maxTagFixes : Int := 8
  /-- How long the raw text may be. -/
  maxInputChars : Int := 200000
  /-- Whether the debug log is kept. -/
  debug : Bool := false
  /-- The file of the debug log. -/
  debugLog : Text := "lesson-sanitizer-debug.log".toList
  /-- Whether snippets are logged in full. -/
  dumpVerbose : Bool := false
  /-- How many lines of a snippet are logged. -/
  dumpMaxLines : Int := 20
  /-- How many characters of a snippet are logged. -/
  dumpMaxChars : Int := 2000
  deriving DecidableEq, Repr

namespace Settings

/-- The settings when nothing is adjusted. -/
def standard : Settings := {}

end Settings

end SnippetGate
