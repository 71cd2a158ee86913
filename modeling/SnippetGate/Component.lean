import SnippetGate.Contract.Vocabulary
import SnippetGate.Pattern.Tag
import SnippetGate.Repair.Closure

/-!
# Isolating the component

The entry point alone, with its mount call. The body is followed to its closing brace. If it has
none, the text was cut off: it ends after the last complete closing tag, and what is open there
is closed in order.
-/

namespace SnippetGate

open Pattern

/-- How a component was found. -/
inductive ComponentMode where
  /-- The whole component is there. -/
  | span
  /-- The component was cut off. -/
  | truncated
  /-- There is no component. -/
  | missing
  deriving DecidableEq, Repr

/-- The identifier of a mode. -/
def ComponentMode.id : ComponentMode → Text
  | span => "span".toList
  | truncated => "truncated".toList
  | missing => "missing".toList

/-- A component with its mount call. -/
structure Component where
  text : Text
  mode : ComponentMode
  /-- What was added to close it, innermost first. -/
  closers : List Text := []
  /-- The journal, in order. -/
  journal : List Entry := []
  deriving DecidableEq, Repr

namespace Component

/-- Whether the component was cut off. -/
def isTruncated (c : Component) : Bool := c.mode == .truncated

/-- The beginning of the returned element. The group is its name, or the end of the opening of a
fragment. -/
def rootTag : Pattern :=
  all [.wordEdge, word "return", blanks, opt (char '('), blanks, char '<',
    .group 1 (.alt tagName (char '>'))]

/-- A closing tag. -/
def anyClosingTag : Pattern := .alt closingTag fragmentClose

/-- The offset after the last closing tag of the returned element, if it has one after its
beginning. -/
def rootCut? (region : Text) : Option Nat := do
  let root ← rootTag.search? region
  let name := root.group 1
  let closer := (Closer.tag (if name = ['>'] then [] else name)).display
  let i ← Text.findLast? closer region
  guard (i > root.start)
  return i + closer.length

/-- The offset after the last closing tag: of the returned element, or else of any. -/
def cut? (region : Text) : Option Nat :=
  rootCut? region <|> (anyClosingTag.findLast? region).map Match.stop

/-- The word that returns a value, at the end of a text. -/
def returnAtEnd : Pattern := all [.wordEdge, word "return", blanks, .textEnd]

/-- The closer of a bracket. -/
def bracketCloser (token : Text) : Text :=
  if token = ['('] then [')'] else if token = ['['] then [']'] else ['}']

/-- The closer of an open frame of a text. The parenthesis of a returned value is closed with the
statement. -/
def closerOf (body : Text) (f : Frame) : Text :=
  match f.kind with
  | .tag => Repair.closerOf f
  | .bracket =>
    if f.token = ['('] ∧ returnAtEnd.occursIn (body.take f.pos) then ");".toList
    else bracketCloser f.token

/-- Close frames, innermost first, each on a line indented like its opener. The closers are
returned with the text. -/
def closeFrames : List Frame → Text → Text × List Text
  | [], body => (body, [])
  | f :: fs, body =>
    let closer := closerOf body f
    let (closed, closers) := closeFrames fs (body ++ '\n' :: body.indentAt f.pos ++ closer)
    (closed, closer :: closers)

/-- A component that was cut off and stays open. -/
def leftOpen (region note : Text) : Component :=
  { text := region, mode := .truncated, journal := [.line note] }

/-- What a component consists of when it was cut off and begins here. -/
def ofTruncated (cfg : Settings) (region : Text) : Component :=
  match cut? region with
  | none =>
    leftOpen region "extract: truncated entry point has no complete closing tag".toList
  | some cut =>
    let body := Text.trimEnd (region.take cut)
    let scan := Scan.ofText body
    if !scan.isOnlyUnclosed || scan.unclosed.any Frame.isOpening then
      leftOpen region ("extract: cannot close truncated body: ".toList ++
        Text.join "; ".toList scan.messages)
    else
      let (closed, closers) := closeFrames scan.unclosed.reverse body
      { text := closed ++ "\n\n".toList ++ cfg.canonicalMount
        mode := .truncated
        closers := closers
        journal := [.line ("extract: closed truncated body with ".toList ++
          Text.join [' '] closers)] }

/-- What stands between the component and its mount call: the blanks that are there if the mount
call follows them, or else an empty line. -/
def separator (cfg : Settings) (rest : Text) : Text :=
  let lead := rest.takeWhile isBlank
  let follows := (cfg.mountCall.matchAt? (.ofText (rest.drop lead.length))).isSome
  if !lead.isEmpty && follows then lead else "\n\n".toList

/-- The component of a text. -/
def ofText (cfg : Settings) (t : Text) : Component :=
  match cfg.entryOpening.search? t with
  | none => { text := t, mode := .missing }
  | some opening =>
    match t.blockEnd? (opening.stop - 1) with
    | none => ofTruncated cfg (t.drop opening.start)
    | some stop =>
      { text := t.slice opening.start stop ++ separator cfg (t.drop stop) ++ cfg.canonicalMount
        mode := .span }

end Component

end SnippetGate
