import SnippetGate.CommandLine.Run
import SnippetGate.Settings.Environment
import SnippetGate.Tsx.Grammar

/-!
# The program

Reads the environment, the arguments and the snippet, and writes what the command line program
leaves behind. Lines of the journal carry no stamp.
-/

namespace SnippetGate.CommandLine

/-- The fault behind a failure to read a file. -/
def faultOf : IO.Error → FileFault
  | .permissionDenied .. => .accessDenied
  | .inappropriateType _ 21 _ => .isDirectory
  | .inappropriateType .. => .notDirectory
  | .invalidArgument .. => .nameTooLong
  | _ => .noSuchFile

/-- The bytes of a file. -/
def readFile (name : Text) : IO (Except FileFault Bytes) := do
  try
    let bytes ← IO.FS.readBinFile (String.ofList name)
    return .ok bytes.toList
  catch e => return .error (faultOf e)

/-- The bytes of the standard input up to its end. -/
def readInput : IO Bytes := do
  let input ← IO.getStdin
  let mut bytes := ByteArray.empty
  let mut reading := true
  while reading do
    let chunk ← input.read 65536
    bytes := bytes ++ chunk
    reading := !chunk.isEmpty
  return bytes.toList

/-- The settings under the environment of the program. -/
def settings : IO (Except NumeralFault Settings) := do
  let env ← Settings.variableNames.filterMapM fun n => do
    return (← IO.getEnv n).map fun v => (n.toList, v.toList)
  return Settings.ofEnvironment fun n => env.lookup n

/-- The parser that the program has for a grammar. -/
def supplyFor (grammar : Text) : Tsx.Filling.Supply :=
  if grammar = "tsx".toList then .available Tsx.Grammar.parser
  else .noGrammar ("no grammar ".toList ++ grammar)

/-- Write the journal. What cannot be added to the log is left out. -/
def writeJournal (cfg : Settings) (journal : List Entry) : IO Unit := do
  if !cfg.debug then return
  IO.eprint (String.ofList (journal.flatMap (Entry.errorText [])))
  try
    let log ← IO.FS.Handle.mk (String.ofList cfg.debugLog) .append
    log.putStr (String.ofList (journal.flatMap (Entry.logText cfg [])))
  catch _ => return

/-- Run the program under the given settings. -/
def runWith (cfg : Settings) (args : List Text) : IO UInt32 := do
  let request := Request.ofArguments args
  let file ← match request.toOption.bind Request.source? with
    | some name => readFile name
    | none => pure (.error .noSuchFile)
  let input ← match request with
    | .ok q => if q.source?.isNone then readInput else pure []
    | .error _ => pure []
  let o := run cfg (supplyFor cfg.grammar) (fun _ => file) input args
  writeJournal cfg o.journal
  IO.eprint (String.ofList o.errors)
  IO.print (String.ofList o.output)
  return o.exit.toUInt32

end SnippetGate.CommandLine

/-- Sanitize the snippet that the arguments name. -/
def main (args : List String) : IO UInt32 := do
  match ← SnippetGate.CommandLine.settings with
  | .ok cfg => SnippetGate.CommandLine.runWith cfg (args.map String.toList)
  | .error e =>
    IO.eprintln (String.ofList e.message)
    return 1
