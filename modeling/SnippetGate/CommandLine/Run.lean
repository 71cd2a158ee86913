import SnippetGate.CommandLine.Arguments
import SnippetGate.Json
import SnippetGate.Sanitize

/-!
# The command line program

Reads a snippet from a file or from the standard input, sanitizes it and writes the outcome as
JSON. The exit code tells whether the snippet is accepted.
-/

namespace SnippetGate.CommandLine

/-- Why a file cannot be read. -/
inductive FileFault where
  | noSuchFile
  | accessDenied
  | notDirectory
  | isDirectory
  | nameTooLong
  deriving DecidableEq, Repr

/-- The wording of a fault, with its number. -/
def FileFault.message : FileFault → Text
  | noSuchFile => "[Errno 2] No such file or directory".toList
  | accessDenied => "[Errno 13] Permission denied".toList
  | notDirectory => "[Errno 20] Not a directory".toList
  | isDirectory => "[Errno 21] Is a directory".toList
  | nameTooLong => "[Errno 36] File name too long".toList

/-- What the program leaves behind. -/
structure Outcome where
  exit : Nat
  output : Text := []
  errors : Text := []
  /-- The journal, in order. -/
  journal : List Entry := []
  deriving DecidableEq, Repr

/-- How the program is called. -/
def usage : Text := "usage: lesson-sanitizer [-h] [--verbose] [file]\n".toList

/-- What the program is for, and what its arguments mean. -/
def help : Text :=
  usage ++ ("\nCommand-line entrypoint: sanitize one snippet and print the result as JSON.\n" ++
    "\npositional arguments:\n" ++
    "  file        snippet to sanitize (default: stdin)\n" ++
    "\noptions:\n" ++
    "  -h, --help  show this help message and exit\n" ++
    "  --verbose   include repairs, warnings and stage\n").toList

/-- The outcome when no snippet is read. -/
def refuse : Refusal → Outcome
  | .help => { exit := 0, output := help }
  | .fault f =>
    { exit := 2
      errors := usage ++ "lesson-sanitizer: error: ".toList ++ f.message ++ ['\n'] }

/-- The outcome when a file cannot be read. -/
def unreadable (name : Text) (f : FileFault) : Outcome where
  exit := 2
  errors := "[lesson-sanitizer: cannot read ".toList ++ name ++ ": ".toList ++ f.message ++
    ": ".toList ++ Text.quoted name ++ "]\n".toList

/-- The text of bytes that were read, with every line break as a newline. -/
def decode (bs : Bytes) : Text := Text.universalNewlines bs.toText

/-- The members of the answer for a result. -/
def answer (verbose : Bool) (r : Result) : List (Text × Json) :=
  ("accepted".toList, .bool r.verdict.isAccepted) ::
    (match r.verdict with
      | .accepted code => ("code".toList, .string code)
      | .rejected ds => ("errors".toList, .strings (ds.map Defect.line))) ::
    if verbose then
      [("repairs".toList, .strings r.repairs),
        ("warnings".toList, .strings (r.warnings.map Contract.Warning.message)),
        ("stage".toList, .string r.stage.id)]
    else []

/-- Sanitize a raw text and write the outcome. -/
def process (cfg : Settings) (supply : Tsx.Filling.Supply) (verbose : Bool) (raw : Text) :
    Outcome :=
  let r := sanitize cfg supply raw
  { exit := if r.verdict.isAccepted then 0 else 1
    output := Json.renderObject (answer verbose r) ++ ['\n']
    journal := r.journal }

/-- Run the program on its arguments. -/
def run (cfg : Settings) (supply : Tsx.Filling.Supply) (file : Text → Except FileFault Bytes)
    (input : Bytes) (args : List Text) : Outcome :=
  match Request.ofArguments args with
  | .error e => refuse e
  | .ok q =>
    match q.source? with
    | none => process cfg supply q.verbose (decode input)
    | some name =>
      match file name with
      | .error f => unreadable name f
      | .ok bs => process cfg supply q.verbose (decode bs)

end SnippetGate.CommandLine
