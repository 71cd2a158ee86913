import SnippetGate.Balance.Frame

/-!
# Balance issues

What a scan of the delimiters can find wrong with a text, and the wording of each finding.
-/

namespace SnippetGate

/-- A closing delimiter. -/
inductive Closer where
  | bracket (x : Char)
  /-- A closing tag with its name, which is empty for a fragment. -/
  | tag (name : Text)
  deriving DecidableEq, Repr

namespace Closer

/-- A closing delimiter in its plain form. -/
def display : Closer → Text
  | bracket x => [x]
  | tag name => '<' :: '/' :: name ++ ['>']

/-- Whether the closer is a closing tag. -/
def isTag : Closer → Bool
  | bracket _ => false
  | tag _ => true

end Closer

/-- Why a text is not balanced. -/
inductive Imbalance where
  /-- A closer where nothing is open that it could close. -/
  | unmatched (closer : Closer)
  /-- A closer that meets another opener. `deeper` tells that its own opener is farther out. -/
  | mismatch (opener : Frame) (closer : Closer) (deeper : Bool)
  /-- A tag whose attributes run into another tag. -/
  | unterminatedTag (opener : Frame)
  /-- A string that never ends, from its quote on this line. -/
  | unterminatedString (quote : Text) (line : Nat)
  /-- A comment that never ends, begun on this line. -/
  | unterminatedComment (line : Nat)
  /-- Delimiters that are never closed, outermost first. -/
  | unclosed (frames : List Frame)
  deriving DecidableEq, Repr

/-- The kinds of issues. -/
inductive IssueKind where
  | unmatchedCloser
  | mismatch
  | unclosed
  | unterminatedTag
  | unterminatedString
  deriving DecidableEq, Repr

/-- Something wrong with the balance of a text. -/
structure Issue where
  cause : Imbalance
  /-- The offset of the closer, or of the delimiter that has none. -/
  pos : Nat
  /-- The offset where the closer ends. -/
  closerEnd? : Option Nat := none
  deriving DecidableEq, Repr

namespace Issue

/-- The kind of the issue. -/
def kind (i : Issue) : IssueKind :=
  match i.cause with
  | .unmatched _ => .unmatchedCloser
  | .mismatch _ _ _ => .mismatch
  | .unterminatedTag _ => .unterminatedTag
  | .unterminatedString _ _ => .unterminatedString
  | .unterminatedComment _ => .unterminatedString
  | .unclosed _ => .unclosed

/-- The opener that a closer met, or that another tag cut short. -/
def opener? (i : Issue) : Option Frame :=
  match i.cause with
  | .mismatch f _ _ => some f
  | .unterminatedTag f => some f
  | _ => none

/-- The closer that the issue is about. -/
def closer? (i : Issue) : Option Closer :=
  match i.cause with
  | .unmatched c => some c
  | .mismatch _ c _ => some c
  | _ => none

/-- Whether the closer's own opener is farther out. -/
def closesDeeper (i : Issue) : Bool :=
  match i.cause with
  | .mismatch _ _ deeper => deeper
  | _ => false

/-- Whether the issue is about a closing tag. -/
def isAboutClosingTag (i : Issue) : Bool := i.closer?.any Closer.isTag

/-- Whether a tag takes part in the issue. -/
def involvesTag (i : Issue) : Bool := i.isAboutClosingTag || i.opener?.any (·.kind == .tag)

/-- The wording of the issue. -/
def message (i : Issue) : Text :=
  match i.cause with
  | .unmatched (.bracket x) => "Unmatched closing bracket: ".toList ++ [x]
  | .unmatched (.tag n) => "Unmatched closing tag: ".toList ++ (Closer.tag n).display
  | .mismatch f (.bracket x) _ =>
    "Mismatched brackets: ".toList ++ f.display ++ " and ".toList ++ [x]
  | .mismatch f (.tag n) _ =>
    "Mismatched tags: ".toList ++ f.display ++ " and ".toList ++ (Closer.tag n).display
  | .unterminatedTag f => "Unterminated tag: ".toList ++ f.display
  | .unterminatedString q line =>
    "Unterminated string literal opened with ".toList ++ q ++ " on line ".toList ++
      Text.ofNat line
  | .unterminatedComment line =>
    "Unterminated block comment opened on line ".toList ++ Text.ofNat line
  | .unclosed fs => "Unclosed openers: ".toList ++ Text.join ", ".toList (fs.map Frame.display)

/-- The issue with the opener at offset `pos` read past its attributes, if that is the opener. -/
def withOpened (pos : Nat) (i : Issue) : Issue :=
  match i.cause with
  | .mismatch f c deeper =>
    if f.isOpening && f.pos == pos then
      { i with cause := .mismatch { f with phase := .children } c deeper }
    else i
  | _ => i

@[simp] theorem kind_withOpened (p : Nat) (i : Issue) : (i.withOpened p).kind = i.kind := by
  obtain ⟨cause, pos, stop⟩ := i
  cases cause with
  | mismatch f c deeper => simp only [withOpened]; split <;> rfl
  | _ => rfl

@[simp] theorem closer?_withOpened (p : Nat) (i : Issue) :
    (i.withOpened p).closer? = i.closer? := by
  obtain ⟨cause, pos, stop⟩ := i
  cases cause with
  | mismatch f c deeper => simp only [withOpened]; split <;> rfl
  | _ => rfl

@[simp] theorem pos_withOpened (p : Nat) (i : Issue) : (i.withOpened p).pos = i.pos := by
  obtain ⟨cause, pos, stop⟩ := i
  cases cause with
  | mismatch f c deeper => simp only [withOpened]; split <;> rfl
  | _ => rfl

end Issue

end SnippetGate
