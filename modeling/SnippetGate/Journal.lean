import SnippetGate.Settings
import SnippetGate.Text.Lines

/-!
# The debug journal

What a run notes for those who look into it: lines, and dumps of snippets, which are cut unless
the settings ask for full ones. Lines go to the error output and to the log, dumps to the log
alone.
-/

namespace SnippetGate

/-- An entry of the journal. -/
inductive Entry where
  | line (message : Text)
  | dump (label : Text) (snippet : Text)
  deriving DecidableEq, Repr

namespace Entry

/-- The first `n` items; for a negative `n` all but the last `-n`. -/
def firstOf {α : Type} (n : Int) (xs : List α) : List α :=
  if n < 0 then xs.take (xs.length - (-n).toNat) else xs.take n.toNat

/-- The preview of a snippet: its first lines that are not blank, up to the bounds. -/
def preview (cfg : Settings) (snippet : Text) : Text :=
  let kept := (Text.lines snippet).filter fun l => !Text.allBlank l
  let shown := Text.join ['\n'] (firstOf cfg.dumpMaxLines kept)
  if (shown.length : Int) > cfg.dumpMaxChars then firstOf cfg.dumpMaxChars shown else shown

/-- Whether the preview of a snippet is marked as cut. -/
def isCut (cfg : Settings) (snippet : Text) : Bool :=
  let kept := (Text.lines snippet).filter fun l => !Text.allBlank l
  (kept.length : Int) > cfg.dumpMaxLines || (snippet.length : Int) > cfg.dumpMaxChars

/-- The heading of a dump. -/
def dumpHeading (label : Text) : Text := "\n[debug_dump] ".toList ++ label

/-- A dump as it is written to the log. -/
def dumpText (cfg : Settings) (label snippet : Text) : Text :=
  if cfg.dumpVerbose then dumpHeading label ++ '\n' :: snippet ++ ['\n']
  else
    dumpHeading label ++ " (len=".toList ++ Text.ofNat snippet.length ++ [')'] ++
      (if isCut cfg snippet then " …(truncated)".toList else []) ++
      '\n' :: preview cfg snippet ++ ['\n']

/-- A line with its stamp. -/
def stamped (stamp message : Text) : Text := "[debug] ".toList ++ stamp ++ message ++ ['\n']

/-- What an entry adds to the log, with a stamp for lines. -/
def logText (cfg : Settings) (stamp : Text) : Entry → Text
  | line message => stamped stamp message
  | dump label snippet => dumpText cfg label snippet

/-- What an entry adds to the error output, with a stamp for lines. -/
def errorText (stamp : Text) : Entry → Text
  | line message => stamped stamp message
  | dump _ _ => []

end Entry

end SnippetGate
