import SnippetGate.Component
import SnippetGate.Contract.Check
import SnippetGate.Repair.Catalogue
import SnippetGate.Text.Quoted
import SnippetGate.Tsx.Filling

/-!
# Sanitizing a snippet

Raw text goes through the gate in stages. A blank or too long text is rejected at once, and so is
one that holds denied code. A text that fulfils the contract is accepted as it is. Any other is
repaired, reduced to its component and filled, and the contract alone decides about the result.
-/

namespace SnippetGate

/-- Where a run ended. -/
inductive Stage where
  | input
  | security
  | precheck
  | final
  deriving DecidableEq, Repr

/-- The identifier of a stage. -/
def Stage.id : Stage → Text
  | input => "input".toList
  | security => "security".toList
  | precheck => "precheck".toList
  | final => "final".toList

/-- What becomes of a raw text. -/
inductive Verdict where
  /-- It is accepted with this code. -/
  | accepted (code : Text)
  /-- It is rejected for these reasons. -/
  | rejected (defects : List Defect)
  deriving DecidableEq, Repr

namespace Verdict

/-- Whether the text is accepted. -/
def isAccepted : Verdict → Bool
  | accepted _ => true
  | rejected _ => false

/-- The accepted code. -/
def code? : Verdict → Option Text
  | accepted c => some c
  | rejected _ => none

/-- Why the text is rejected. -/
def defects : Verdict → List Defect
  | accepted _ => []
  | rejected ds => ds

/-- The reasons for a rejection, each on one line. -/
def errors (v : Verdict) : List Text := v.defects.map Defect.line

/-- All reasons for a rejection on one line. -/
def errorMessage (v : Verdict) : Text := Text.join "; ".toList v.errors

end Verdict

/-- The outcome of a run. -/
structure Result where
  verdict : Verdict
  stage : Stage
  warnings : List Contract.Warning := []
  /-- The names of the repairs that changed the text, in order. -/
  repairs : List Text := []
  /-- The journal, in order. -/
  journal : List Entry := []
  deriving DecidableEq, Repr

namespace Sanitize

/-- The name of the repair that closes a component that was cut off. -/
def truncationRepair : Text := "truncate_and_close".toList

/-- A text after repair, extraction and filling. -/
structure Candidate where
  code : Text
  /-- Whether the component was cut off. -/
  isTruncated : Bool
  repairs : List Text
  journal : List Entry
  deriving DecidableEq, Repr

/-- Repair a text, isolate its component and fill what is empty. -/
def prepare (cfg : Settings) (supply : Tsx.Filling.Supply) (t : Text) : Candidate :=
  let repaired := Repair.repair cfg t
  let component := Component.ofText cfg repaired.text
  let code := Text.trim component.text
  let filled : Tsx.Filling.Filled :=
    if cfg.treeRepair then Tsx.Filling.fill cfg.grammar supply code else { text := code }
  { code := filled.text
    isTruncated := component.isTruncated
    repairs := repaired.applied ++ (if component.isTruncated then [truncationRepair] else []) ++
      filled.applied
    journal := repaired.journal ++ component.journal ++ filled.journal }

/-- The note about a text that holds denied code. -/
def securityNote (vs : List Violation) : Entry :=
  .line ("sanitize: security rejection (".toList ++
    Text.join ", ".toList (vs.map fun v => v.category.id) ++ [')'])

/-- The note about a text that needs no repair. -/
def acceptedNote : Entry := .line "sanitize: pre-check accepted, no repair needed".toList

/-- The note about a text that needs repair. -/
def defectsNote (ds : List Defect) : Entry :=
  .line ("sanitize: pre-check found ".toList ++ Text.ofNat ds.length ++ " error(s): ".toList ++
    Text.join "; ".toList (ds.map Defect.line))

/-- The note about the effect of the repairs. -/
def repairsNote (repairs : List Text) (before after : Nat) : Entry :=
  .line ("sanitize: repairs=".toList ++ Text.quotedList repairs ++ " errors ".toList ++
    Text.ofNat before ++ " -> ".toList ++ Text.ofNat after)

/-- The result for a text that does not fulfil the contract with these defects: `t` is the raw
text without the blanks around it. -/
def repairPath (cfg : Settings) (supply : Tsx.Filling.Supply) (raw t : Text)
    (before : List Defect) : Result :=
  let c := prepare cfg supply t
  let after := Contract.defects cfg c.code
  let journal := [defectsNote before, .dump "sanitize.raw".toList raw] ++ c.journal ++
    [repairsNote c.repairs before.length after.length]
  if after.isEmpty then
    { verdict := .accepted c.code
      stage := .final
      warnings := Contract.warnings c.code
      repairs := c.repairs
      journal := journal }
  else
    { verdict := .rejected (after ++ if c.isTruncated then [.truncatedOutput] else [])
      stage := .final
      warnings := Contract.warnings c.code
      repairs := c.repairs
      journal := journal ++ [.dump "sanitize.rejected".toList c.code] }

/-- The result for a text of an acceptable length without denied code. -/
def contractPath (cfg : Settings) (supply : Tsx.Filling.Supply) (raw : Text) : Result :=
  let t := Text.trim raw
  let before := Contract.defects cfg t
  if before.isEmpty then
    { verdict := .accepted t
      stage := .precheck
      warnings := Contract.warnings t
      journal := [acceptedNote] }
  else repairPath cfg supply raw t before

end Sanitize

open Sanitize in
/-- Turn raw text into an accepted snippet or a rejection. -/
def sanitize (cfg : Settings) (supply : Tsx.Filling.Supply) (raw : Text) : Result :=
  if Text.allBlank raw then { verdict := .rejected [.emptyInput], stage := .input }
  else if (raw.length : Int) > cfg.maxInputChars then
    { verdict := .rejected [.inputTooLarge raw.length cfg.maxInputChars], stage := .input }
  else
    match raw.violations cfg.trustedImport with
    | [] => contractPath cfg supply raw
    | v :: vs =>
      { verdict := .rejected ((v :: vs).map .denied)
        stage := .security
        journal := [securityNote (v :: vs)] }

/-- A piece of streamed output. -/
inductive Chunk where
  /-- Plain text. -/
  | text (t : Text)
  /-- A message with text in it, if any. -/
  | message (content? : Option Text)

/-- The text of a piece. -/
def Chunk.content : Chunk → Text
  | text t => t
  | message c => c.getD []

/-- Sanitize the text that the pieces make together. -/
def sanitizeChunks (cfg : Settings) (supply : Tsx.Filling.Supply) (chunks : List Chunk) :
    Result :=
  sanitize cfg supply (chunks.flatMap Chunk.content)

end SnippetGate
