import SnippetGate.Pattern.Search
import SnippetGate.Text.Digit
import SnippetGate.Text.Quoted

/-!
# Command line arguments

One operand, the file, which may be missing, and two options. A long option may be cut short as
long as it is clear. After a double hyphen every argument is an operand.
-/

namespace SnippetGate.CommandLine

/-- The options. -/
inductive Switch where
  | help
  | verbose
  deriving DecidableEq, Repr

namespace Switch

/-- All options. -/
def all : List Switch := [help, verbose]

/-- The spellings of an option. -/
def spellings : Switch → List Text
  | help => ["-h".toList, "--help".toList]
  | verbose => ["--verbose".toList]

/-- The spellings of all options, with the options. -/
def table : List (Text × Switch) := all.flatMap fun o => o.spellings.map (·, o)

/-- An option as it is shown in messages. -/
def display (o : Switch) : Text := Text.join ['/'] o.spellings

end Switch

/-- Why arguments are refused. -/
inductive ArgumentFault where
  /-- An option that is cut too short. -/
  | ambiguous (arg : Text) (candidates : List Text)
  /-- An option with a value that it does not take. -/
  | unusedValue (option : Switch) (value : Text)
  /-- Arguments that mean nothing. -/
  | unrecognized (args : List Text)
  deriving DecidableEq, Repr

/-- The wording of a fault. -/
def ArgumentFault.message : ArgumentFault → Text
  | ambiguous arg cs =>
    "ambiguous option: ".toList ++ arg ++ " could match ".toList ++ Text.join ", ".toList cs
  | unusedValue o v =>
    "argument ".toList ++ o.display ++ ": ignored explicit argument ".toList ++ Text.quoted v
  | unrecognized args => "unrecognized arguments: ".toList ++ Text.join [' '] args

/-- What an argument is. -/
inductive Argument where
  /-- An operand. -/
  | operand (t : Text)
  /-- The double hyphen after which there are operands only. -/
  | separator
  /-- An option by one of its spellings, perhaps with a value. -/
  | option (o : Switch) (isLong : Bool) (value? : Option Text)
  /-- Something that looks like an option. -/
  | unknown (t : Text)
  deriving DecidableEq, Repr

namespace Argument

open Pattern in
/-- A negative number. -/
def negativeNumber : Pattern :=
  .seq (char '-') (.alt (.seq (many1 isDigit) .textEnd)
    (all [many isDigit, char '.', many1 isDigit, .textEnd]))

/-- Whether an argument is an operand although it begins with a hyphen. -/
def isOperandLike (t : Text) : Bool :=
  (negativeNumber.matchAt? (.ofText t)).isSome || t.contains ' '

/-- An argument at its equals sign, if it has one. -/
def splitValue (t : Text) : Text × Option Text :=
  let name := t.takeWhile (· != '=')
  if name.length = t.length then (t, none) else (name, some (t.drop (name.length + 1)))

/-- The options that a long option cut short can be. -/
def longCandidates (t : Text) : List (Text × Switch) :=
  Switch.table.filter fun e => (splitValue t).1.isPrefixOf e.1

/-- What a long option cut short means. -/
def abbreviated (t : Text) : Except ArgumentFault Argument :=
  match longCandidates t with
  | [] => .ok (if isOperandLike t then .operand t else .unknown t)
  | [(_, o)] => .ok (.option o true (splitValue t).2)
  | several => .error (.ambiguous t (several.map Prod.fst))

/-- What an option that is not spelt out means. -/
def shortened (t : Text) : Except ArgumentFault Argument :=
  match t with
  | '-' :: '-' :: _ => abbreviated t
  | '-' :: 'h' :: value => .ok (.option .help false (some value))
  | _ => .ok (if isOperandLike t then .operand t else .unknown t)

/-- What an argument before the double hyphen means. -/
def classify (t : Text) : Except ArgumentFault Argument :=
  if t = "--".toList then .ok .separator
  else if t.head? ≠ some '-' ∨ t.length = 1 then .ok (.operand t)
  else
    match Switch.table.lookup t with
    | some o => .ok (.option o (o != .help || t.length > 2) none)
    | none =>
      let (name, value?) := splitValue t
      match Switch.table.lookup name with
      | some o => .ok (.option o (name.length > 2) value?)
      | none => shortened t

/-- What arguments mean. -/
def classifyAll : List Text → Except ArgumentFault (List Argument)
  | [] => .ok []
  | t :: ts => do
    let a ← classify t
    if a = .separator then return a :: ts.map operand
    return a :: (← classifyAll ts)

/-- The argument as it was written. Options do not occur among what is not recognized. -/
def spelling : Argument → Text
  | operand t => t
  | separator => "--".toList
  | option o _ _ => o.display
  | unknown t => t

end Argument

/-- What the arguments ask for. -/
structure Request where
  /-- The file to read, or else the standard input. -/
  file? : Option Text := none
  /-- Whether the operand has been read. -/
  fileTaken : Bool := false
  verbose : Bool := false
  /-- Arguments that mean nothing. -/
  extras : List Text := []
  deriving DecidableEq, Repr

/-- Why the program ends without a snippet. -/
inductive Refusal where
  /-- The help is asked for. -/
  | help
  | fault (f : ArgumentFault)
  deriving DecidableEq, Repr

namespace Request

/-- The file to read. An empty name is none. -/
def source? (q : Request) : Option Text := q.file?.filter (!·.isEmpty)

/-- The request with an option. A short option may be repeated behind its hyphen. -/
def withOption (q : Request) (o : Switch) (isLong : Bool) (value? : Option Text) :
    Except Refusal Request :=
  match value? with
  | some v =>
    let rest := if isLong then v else v.dropWhile (· == 'h')
    if isLong || v.isEmpty || !rest.isEmpty then .error (.fault (.unusedValue o rest))
    else .error .help
  | none =>
    match o with
    | .help => .error .help
    | .verbose => .ok { q with verbose := true }

/-- The request that arguments add to one. -/
def read (q : Request) : List Argument → Except Refusal Request
  | [] => .ok q
  | .option o isLong value? :: r =>
    match q.withOption o isLong value? with
    | .error e => .error e
    | .ok q => read q r
  | .unknown t :: r => read { q with extras := q.extras ++ [t] } r
  | .operand t :: r =>
    if q.fileTaken then read { q with extras := q.extras ++ [t] } r
    else
      match r with
      | .separator :: r => read { q with file? := some t, fileTaken := true } r
      | r => read { q with file? := some t, fileTaken := true } r
  | .separator :: r =>
    if q.fileTaken then read { q with extras := q.extras ++ [Argument.separator.spelling] } r
    else
      match r with
      | .operand t :: r => read { q with file? := some t, fileTaken := true } r
      | r => read { q with fileTaken := true } r

/-- The request of a command line. -/
def ofArguments (args : List Text) : Except Refusal Request :=
  match Argument.classifyAll args with
  | .error f => .error (.fault f)
  | .ok as =>
    match ({} : Request).read as with
    | .error e => .error e
    | .ok q => if q.extras.isEmpty then .ok q else .error (.fault (.unrecognized q.extras))

end Request

end SnippetGate.CommandLine
