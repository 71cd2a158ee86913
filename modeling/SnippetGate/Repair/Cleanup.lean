import SnippetGate.Repair.Basic

/-!
# Cleaning up

Newlines in one spelling, no fences of a surrounding document, no imports of the trusted module
and no exports.
-/

namespace SnippetGate.Repair

open Pattern

/-- What shows that a text has carriage returns. -/
def carriageReturn : Text := ['\\', 'r']

/-- Every line break as a newline. -/
def normalizeNewlines : Repair :=
  sure "normalize_newlines" .cleanup
    (fun t => if t.contains '\r' then some carriageReturn else none) Text.universalNewlines

/-- The end of a line, with its newline if there is one. -/
def restOfLine : Pattern := .alt (char '\n') .lineEnd

/-- A line that opens or closes a fenced block. -/
def fenceLine : Pattern :=
  all [.lineStart, indent, word "\x60\x60\x60", many (fun c => isWord c || c == '-'), indent,
    restOfLine]

/-- No fences. -/
def stripFences : Repair := ofPattern "strip_markdown_fences" .cleanup fenceLine fun _ => []

/-- An import of the trusted module. -/
def trustedImport (trusted : Text) : Pattern :=
  let quote : Pattern := .one fun c => c == '\x22' || c == '\x27'
  all [.lineStart, indent, word "import", gap,
    opt (all [few (fun c => c != ';' && c != '\n'), gap, word "from", gap]),
    quote, text trusted, quote, indent, opt (char ';'), indent, restOfLine]

/-- The words that export a function declaration. The group is the indentation. -/
def exportWords : Pattern :=
  all [.lineStart, .group 1 indent, word "export", gap, opt (.seq (word "default") gap),
    .ahead (all [opt (.seq (word "async") gap), word "function", .wordEdge])]

/-- A statement that exports names declared elsewhere. -/
def exportStatement : Pattern :=
  all [.lineStart, indent, word "export", gap,
    any [all [word "default", gap, Pattern.name],
      all [char '{', many (fun c => c != '}' && c != '\n'), char '}']],
    blanks, opt (char ';'), indent, restOfLine]

/-- The piece that shows a module declaration. -/
def moduleFragment? (trusted t : Text) : Option Text :=
  [trustedImport trusted, exportWords, exportStatement].findSome? fun p =>
    (p.search? t).map fun m =>
      let shown := Text.trim m.text
      if shown.isEmpty then "export".toList else shown

/-- A text without module declarations. -/
def withoutModule (trusted t : Text) : Text :=
  let noImports := (trustedImport trusted).replaceAll (fun _ => []) t
  let plain := exportWords.replaceAll (·.group 1) noImports
  exportStatement.replaceAll (fun _ => []) plain

/-- No module declarations. -/
def stripModule (cfg : Settings) : Repair :=
  sure "strip_module_declarations" .cleanup (moduleFragment? cfg.trustedImport)
    (withoutModule cfg.trustedImport)

end SnippetGate.Repair
