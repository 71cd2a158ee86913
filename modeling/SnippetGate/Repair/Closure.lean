import SnippetGate.Contract.Vocabulary
import SnippetGate.Repair.TagPair

/-!
# Closing what is open

If nothing is wrong with the entry point but some elements that are never closed, their closing
tags are put before the end of the returned value.
-/

namespace SnippetGate.Repair

open Pattern

/-- The end of the returned value and of the body. -/
def bodyClose : Pattern := all [char ')', blanks, opt (char ';'), blanks, char '}']

/-- Where closing tags are missing. -/
structure ClosurePlan where
  /-- The offset of the entry point. -/
  region : Nat
  /-- The offset of the end of the returned value. -/
  anchor : Nat
  /-- The tags to close, outermost first. -/
  tags : List Frame
  deriving DecidableEq, Repr

/-- The offset of the last end of a body between two offsets. -/
def lastBodyClose? (t : Text) (i j : Nat) : Option Nat :=
  (bodyClose.findLast? (t.slice i j)).map fun m => i + m.start

/-- The plan for a text whose only issue is that some tags are never closed. -/
def closurePlan? (cfg : Settings) (t : Text) : Option ClosurePlan := do
  let declaration ← cfg.entryDeclaration.search? t
  let region := declaration.start
  let scan := Scan.ofTextFrom t region
  guard scan.isOnlyUnclosed
  let tags := scan.unclosedTags
  guard (!tags.isEmpty && (tags.length : Int) ≤ cfg.maxClosureTags)
  guard (!tags.any (·.phase == .attrs))
  let boundary := match cfg.mountCall.findLast? t with
    | some m => if m.start > region then m.start else t.length
    | none => t.length
  let anchor ← lastBodyClose? t region boundary
  guard (tags.all fun f => f.pos ≤ anchor)
  return ⟨region, anchor, tags⟩

/-- A text with the closing tags of a plan. They go on lines of their own, indented like their
openers, if the end of the returned value stands first on its line. -/
def carryOut (t : Text) (p : ClosurePlan) : Text :=
  let lineStart := t.lineStart p.anchor
  if Text.allBlank (t.slice lineStart p.anchor) then
    t.take lineStart ++
      (p.tags.reverse.flatMap fun f => t.indentAt f.pos ++ closerOf f ++ ['\n']) ++
      t.drop lineStart
  else t.take p.anchor ++ p.tags.reverse.flatMap closerOf ++ t.drop p.anchor

/-- Whether a scan met nothing but brackets that are never closed. -/
def leavesNoTags (r : Scan) : Bool :=
  r.unclosedTags.isEmpty && r.issues.all (·.kind == .unclosed)

/-- A text with the missing closing tags, if that is all it needs. -/
def withClosers (cfg : Settings) (t : Text) : Text :=
  match closurePlan? cfg t with
  | none => t
  | some p =>
    let candidate := carryOut t p
    if leavesNoTags (Scan.ofTextFrom candidate p.region) then candidate else t

/-- The tags that are never closed. -/
def missingClosers? (cfg : Settings) (t : Text) : Option Text :=
  (closurePlan? cfg t).map fun p => Text.join ", ".toList (p.tags.map Frame.display)

/-- Put in the missing closing tags. -/
def appendClosers (cfg : Settings) : Repair :=
  sure "append_missing_closers" .closure (missingClosers? cfg) (withClosers cfg)

end SnippetGate.Repair
