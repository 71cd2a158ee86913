import SnippetGate.Text.Basic

/-!
# Open delimiters

A frame is a delimiter that is still open: a bracket, or a markup tag. The stack of frames
decides how the next character is read: as script inside of brackets, as attributes inside of a
tag that is still being written, as markup between the tags of an element.
-/

namespace SnippetGate

/-- What kind of delimiter a frame is. -/
inductive FrameKind where
  | bracket
  | tag
  deriving DecidableEq, Repr

/-- How far a tag has been read. -/
inductive Phase where
  /-- The frame is no tag. -/
  | unset
  /-- The tag is open and its attributes follow. -/
  | attrs
  /-- The tag is complete and the content of the element follows. -/
  | children
  deriving DecidableEq, Repr

/-- How characters are read. -/
inductive Context where
  | script
  | attrs
  | markup
  deriving DecidableEq, Repr

/-- A delimiter that is still open. -/
structure Frame where
  kind : FrameKind
  /-- The bracket, or the name of the tag, which is empty for a fragment. -/
  token : Text
  /-- The offset of the delimiter. -/
  pos : Nat
  phase : Phase := .unset
  deriving DecidableEq, Repr

namespace Frame

/-- A bracket. -/
def bracket (x : Char) (pos : Nat) : Frame := ⟨.bracket, [x], pos, .unset⟩

/-- A frame as it is shown in messages. -/
def display (f : Frame) : Text :=
  match f.kind with
  | .bracket => f.token
  | .tag => '<' :: f.token ++ ['>']

/-- Whether the frame is a tag whose attributes are being read. -/
def isOpening (f : Frame) : Bool := f.kind == .tag && f.phase == .attrs

/-- How the characters directly inside of the frame are read. -/
def context (f : Frame) : Context :=
  match f.kind with
  | .bracket => .script
  | .tag => if f.phase = .attrs then .attrs else .markup

end Frame

/-- What the next character belongs to. -/
inductive Mode where
  | normal
  | string
  | lineComment
  | blockComment
  deriving DecidableEq, Repr

/-- The open frames, innermost first, and what the next character belongs to. -/
structure BracketStack where
  frames : List Frame := []
  mode : Mode := .normal
  /-- The quote that ends the present string. -/
  quote : Text := []
  /-- Where the present string or comment begins. -/
  modeStart : Option Nat := none
  deriving DecidableEq, Repr

namespace BracketStack

/-- The innermost frame. -/
def top? (s : BracketStack) : Option Frame := s.frames.head?

/-- Open a frame. -/
def push (s : BracketStack) (f : Frame) : BracketStack := { s with frames := f :: s.frames }

/-- Close the innermost frame, if there is one. -/
def pop (s : BracketStack) : BracketStack := { s with frames := s.frames.tail }

/-- How the next character is read outside of strings and comments. -/
def context (s : BracketStack) : Context :=
  match s.frames with
  | [] => .script
  | f :: _ => f.context

/-- Begin a string or a comment. -/
def enter (s : BracketStack) (mode : Mode) (start : Option Nat) (quote : Text) : BracketStack :=
  { s with mode := mode, quote := quote, modeStart := start }

/-- End a string or a comment. -/
def leave (s : BracketStack) : BracketStack :=
  { s with mode := .normal, quote := [], modeStart := none }

end BracketStack

end SnippetGate
