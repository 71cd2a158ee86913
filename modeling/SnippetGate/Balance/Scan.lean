import SnippetGate.Balance.Issue
import SnippetGate.Balance.Markup
import SnippetGate.Text.Cursor
import SnippetGate.Text.Lines

/-!
# Scanning for balance

One walk over a text, from left to right, with a stack of open frames. Strings and comments are
passed over. Brackets and, where tags are followed, tags share the stack: a closer must meet its
own opener. The text between the tags of an element is markup, in which only tags and braces
count; inside of braces it is script again.

Every step but one goes forward. The exception closes a tag whose attributes run into a `<`, and
leaves the `<` to the next step.
-/

namespace SnippetGate

/-- What a scan looks at. -/
structure ScanOptions where
  /-- The offset where the walk ends. -/
  limit : Nat
  /-- The brackets, each with its closer. -/
  pairs : List (Char × Char) := [('(', ')'), ('[', ']'), ('{', '}')]
  /-- Whether tags are followed. -/
  tracksTags : Bool := true
  /-- Whether the walk ends as soon as all that was opened is closed. -/
  stopsWhenBalanced : Bool := false

namespace ScanOptions

/-- The same options with other brackets. Where tags are followed, braces always delimit script
inside of markup. -/
def withPairs (o : ScanOptions) (pairs : List (Char × Char)) : ScanOptions :=
  if o.tracksTags && !pairs.any (·.1 == '{') then { o with pairs := pairs ++ [('{', '}')] }
  else { o with pairs := pairs }

/-- Whether a character opens a bracket. -/
def isOpener (o : ScanOptions) (x : Char) : Bool := o.pairs.any (·.1 == x)

/-- The opener that a character closes. Of several, it is the last. -/
def openerOf? (o : ScanOptions) (x : Char) : Option Char :=
  (o.pairs.reverse.find? (·.2 == x)).map Prod.fst

end ScanOptions

/-- A place of the walk. -/
structure ScanState where
  cursor : Cursor
  stack : BracketStack := {}
  /-- What was found wrong so far, the latest first. -/
  issues : List Issue := []
  /-- Whether something has been open. -/
  opened : Bool := false
  /-- Where the walk ended because all was closed. -/
  closedAt? : Option Nat := none
  deriving DecidableEq, Repr

namespace ScanState

/-! ### Parts of a step -/

/-- Go on by `n` characters. -/
def advance (s : ScanState) (n : Nat) : ScanState := { s with cursor := s.cursor.skip n }

/-- Open a frame. -/
def push (s : ScanState) (f : Frame) : ScanState := { s with stack := s.stack.push f }

/-- Close the innermost frame. -/
def pop (s : ScanState) : ScanState := { s with stack := s.stack.pop }

/-- Note that something is wrong. -/
def report (s : ScanState) (i : Issue) : ScanState := { s with issues := i :: s.issues }

/-- Begin a string or a comment here. -/
def enter (s : ScanState) (mode : Mode) (quote : Text) : ScanState :=
  { s with stack := s.stack.enter mode (some s.cursor.pos) quote }

/-- End a string or a comment. -/
def leave (s : ScanState) : ScanState := { s with stack := s.stack.leave }

/-- Read a closing bracket for the given opener. It closes the innermost frame, rightly or not. -/
def closeBracket (s : ScanState) (opener x : Char) : ScanState :=
  match s.stack.frames with
  | [] => s.report ⟨.unmatched (.bracket x), s.cursor.pos, some (s.cursor.pos + 1)⟩
  | top :: _ =>
    if top.kind = .bracket ∧ top.token = [opener] then s.pop
    else
      (s.report ⟨.mismatch top (.bracket x) false, s.cursor.pos, some (s.cursor.pos + 1)⟩).pop

/-- The tags directly inside of the innermost tag named `name` that no bracket shields, innermost
first, and the frames around that tag. -/
def splitAtTag? (name : Text) : List Frame → Option (List Frame × List Frame)
  | [] => none
  | f :: fs =>
    if f.kind = .bracket then none
    else if f.token = name then some ([], fs)
    else (splitAtTag? name fs).map fun (inner, outer) => (f :: inner, outer)

/-- Read a closing tag that ends at offset `stop`. If a tag of its name is open, it closes that
tag with all tags inside of it; else it closes the innermost frame if that is a tag. -/
def closeTag (s : ScanState) (name : Text) (stop : Nat) : ScanState :=
  match splitAtTag? name s.stack.frames with
  | some (inner, outer) =>
    let found := inner.map fun f =>
      (⟨.mismatch f (.tag name) true, s.cursor.pos, some stop⟩ : Issue)
    { s with
      stack := { s.stack with frames := outer }
      issues := found.reverse ++ s.issues }
  | none =>
    match s.stack.frames with
    | [] => s.report ⟨.unmatched (.tag name), s.cursor.pos, some stop⟩
    | top :: _ =>
      if top.kind = .tag then
        (s.report ⟨.mismatch top (.tag name) false, s.cursor.pos, some stop⟩).pop
      else s.report ⟨.unmatched (.tag name), s.cursor.pos, some stop⟩

/-- The innermost tag is complete: its content follows. -/
def beginChildren (s : ScanState) : ScanState :=
  match s.stack.frames with
  | [] => s
  | top :: fs =>
    { s with
      stack := { s.stack with frames := { top with phase := .children } :: fs }
      issues := s.issues.map (Issue.withOpened top.pos) }

/-! ### Steps -/

/-- Read an opening tag, or the opening of a fragment, whose `<` stands before `rest`. -/
def readOpeningTag (s : ScanState) (rest : Text) : ScanState :=
  if rest.head? = some '>' then (s.push ⟨.tag, [], s.cursor.pos, .children⟩).advance 2
  else
    let name := (tagName? rest).getD []
    (s.push ⟨.tag, name, s.cursor.pos, .attrs⟩).advance (name.length + 1)

/-- Read what may be a closing tag, whose first two characters stand before `rest`. -/
def readClosingTag (s : ScanState) (rest : Text) : ScanState :=
  match closingTagRest? rest with
  | some (name, n) => (s.closeTag name (s.cursor.pos + (n + 2))).advance (n + 2)
  | none => s.advance 1

/-- A step inside of a string. -/
def stepString (s : ScanState) (x : Char) : ScanState :=
  if x = '\\' then s.advance 2
  else if s.stack.quote = [x] then s.leave.advance 1
  else s.advance 1

/-- A step inside of a comment that ends with the line. -/
def stepLineComment (s : ScanState) (x : Char) : ScanState :=
  if x = '\n' then s.leave.advance 1 else s.advance 1

/-- A step inside of a comment that ends with a star and a slash. -/
def stepBlockComment (s : ScanState) (x : Char) (y : Option Char) : ScanState :=
  if x = '*' ∧ y = some '/' then s.leave.advance 2 else s.advance 1

/-- A step between the tags of an element. -/
def stepMarkup (s : ScanState) (x : Char) (y : Option Char) (rest : Text) : ScanState :=
  if x = '{' then (s.push (.bracket x s.cursor.pos)).advance 1
  else if x = '<' then
    if y = some '/' then s.readClosingTag rest.tail
    else if y = some '>' ∨ (tagName? rest).isSome then s.readOpeningTag rest
    else s.advance 1
  else s.advance 1

/-- A step inside of the tag `top`. -/
def stepAttrs (o : ScanOptions) (s : ScanState) (top : Frame) (x : Char) (y : Option Char) :
    ScanState :=
  if x = '\x22' ∨ x = '\x27' then (s.enter .string [x]).advance 1
  else if x = '{' then (s.push (.bracket x s.cursor.pos)).advance 1
  else if x = '/' ∧ y = some '>' then s.pop.advance 2
  else if x = '>' then (if isVoid top.token then s.pop else s.beginChildren).advance 1
  else if x = '<' then (s.report ⟨.unterminatedTag top, top.pos, none⟩).pop
  else if (o.openerOf? x).isSome then
    (s.report ⟨.mismatch top (.bracket x) false, s.cursor.pos, some (s.cursor.pos + 1)⟩).advance 1
  else s.advance 1

/-- A step in script. -/
def stepScript (o : ScanOptions) (s : ScanState) (x : Char) (y : Option Char) (rest : Text) :
    ScanState :=
  if x = '\x22' ∨ x = '\x27' ∨ x = '\x60' then (s.enter .string [x]).advance 1
  else if x = '/' ∧ y = some '/' then (s.enter .lineComment []).advance 2
  else if x = '/' ∧ y = some '*' then (s.enter .blockComment []).advance 2
  else if o.isOpener x then (s.push (.bracket x s.cursor.pos)).advance 1
  else
    match o.openerOf? x with
    | some opener => (s.closeBracket opener x).advance 1
    | none =>
      if o.tracksTags ∧ x = '<' then
        if y = some '/' then s.readClosingTag rest.tail
        else if opensMarkup s.cursor.before rest then s.readOpeningTag rest
        else s.advance 1
      else s.advance 1

/-- A step outside of strings and comments. -/
def stepNormal (o : ScanOptions) (s : ScanState) (x : Char) (y : Option Char) (rest : Text) :
    ScanState :=
  match s.stack.frames with
  | [] => stepScript o s x y rest
  | top :: _ =>
    if o.tracksTags then
      match top.context with
      | .script => stepScript o s x y rest
      | .attrs => stepAttrs o s top x y
      | .markup => stepMarkup s x y rest
    else stepScript o s x y rest

/-- Note whether something is open, or all is closed again. -/
def noteBalance (o : ScanOptions) (s : ScanState) : ScanState :=
  if !o.stopsWhenBalanced then s
  else if !s.stack.frames.isEmpty then { s with opened := true }
  else if s.opened then { s with closedAt? := some s.cursor.pos }
  else s

/-- The character after the next one, which stands first in `rest`, if the walk gets there. -/
def second? (o : ScanOptions) (s : ScanState) (rest : Text) : Option Char :=
  if s.cursor.pos + 1 < o.limit then rest.head? else none

/-- The step for the next character `x`, which stands before `rest`. -/
def step (o : ScanOptions) (s : ScanState) (x : Char) (rest : Text) : ScanState :=
  match s.stack.mode with
  | .string => s.stepString x
  | .lineComment => s.stepLineComment x
  | .blockComment => s.stepBlockComment x (second? o s rest)
  | .normal => (stepNormal o s x (second? o s rest) rest).noteBalance o

/-- The next place of the walk, unless it is over. -/
def next? (o : ScanOptions) (s : ScanState) : Option ScanState :=
  if s.closedAt?.isSome ∨ o.limit ≤ s.cursor.pos then none
  else
    match s.cursor.after with
    | [] => none
    | x :: rest => some (s.step o x rest)

/-! ### The walk ends -/

/-- What is left to do: every character left can open one frame, and each frame can take a step
that does not go forward to close. -/
def work (s : ScanState) : Nat := 2 * s.cursor.after.length + s.stack.frames.length

@[simp] theorem cursor_advance (s : ScanState) (n : Nat) :
    (s.advance n).cursor = s.cursor.skip n := rfl
@[simp] theorem cursor_push (s : ScanState) (f : Frame) : (s.push f).cursor = s.cursor := rfl
@[simp] theorem cursor_pop (s : ScanState) : s.pop.cursor = s.cursor := rfl
@[simp] theorem cursor_report (s : ScanState) (i : Issue) : (s.report i).cursor = s.cursor := rfl
@[simp] theorem cursor_enter (s : ScanState) (m : Mode) (q : Text) :
    (s.enter m q).cursor = s.cursor := rfl
@[simp] theorem cursor_leave (s : ScanState) : s.leave.cursor = s.cursor := rfl

@[simp] theorem cursor_closeBracket (s : ScanState) (opener x : Char) :
    (s.closeBracket opener x).cursor = s.cursor := by
  unfold closeBracket
  split
  · rfl
  · split <;> rfl

@[simp] theorem cursor_closeTag (s : ScanState) (name : Text) (stop : Nat) :
    (s.closeTag name stop).cursor = s.cursor := by
  unfold closeTag
  split
  · rfl
  · split
    · rfl
    · split <;> rfl

@[simp] theorem cursor_beginChildren (s : ScanState) : s.beginChildren.cursor = s.cursor := by
  unfold beginChildren
  split <;> rfl

@[simp] theorem cursor_noteBalance (s : ScanState) (o : ScanOptions) :
    (s.noteBalance o).cursor = s.cursor := by
  unfold noteBalance
  split
  · rfl
  · split
    · rfl
    · split <;> rfl

@[simp] theorem stack_noteBalance (s : ScanState) (o : ScanOptions) :
    (s.noteBalance o).stack = s.stack := by
  unfold noteBalance
  split
  · rfl
  · split
    · rfl
    · split <;> rfl

theorem length_splitAtTag? {name : Text} {fs inner outer : List Frame}
    (h : splitAtTag? name fs = some (inner, outer)) : outer.length ≤ fs.length := by
  induction fs generalizing inner with
  | nil => cases h
  | cons f fs ih =>
    rw [splitAtTag?] at h
    split at h
    · cases h
    · split at h
      · obtain ⟨-, rfl⟩ := by simpa using h
        exact Nat.le_succ _
      · obtain ⟨⟨i, o⟩, hio, ho⟩ := Option.map_eq_some_iff.mp h
        obtain ⟨-, rfl⟩ := by simpa using ho
        exact Nat.le_succ_of_le (ih hio)

/-- Whether a step opened at most one frame. -/
def OpensOne (s t : ScanState) : Prop :=
  t.stack.frames.length ≤ s.stack.frames.length + 1

theorem opensOne_of_frames {s t : ScanState} (h : t.stack.frames = s.stack.frames) :
    OpensOne s t := by
  rw [OpensOne, h]
  exact Nat.le_succ _

theorem opensOne_pop (s : ScanState) : OpensOne s s.pop := by
  simp only [OpensOne, pop, BracketStack.pop, List.length_tail]
  omega

theorem opensOne_push (s : ScanState) (f : Frame) : OpensOne s (s.push f) := Nat.le_refl _

theorem opensOne_closeBracket (s : ScanState) (opener x : Char) :
    OpensOne s (s.closeBracket opener x) := by
  unfold closeBracket
  split
  · exact opensOne_of_frames rfl
  · split <;> exact opensOne_pop _

theorem opensOne_closeTag (s : ScanState) (name : Text) (stop : Nat) :
    OpensOne s (s.closeTag name stop) := by
  unfold closeTag
  split
  · next h => exact Nat.le_succ_of_le (length_splitAtTag? h)
  · split
    · exact opensOne_of_frames rfl
    · split
      · exact opensOne_pop _
      · exact opensOne_of_frames rfl

theorem opensOne_beginChildren (s : ScanState) : OpensOne s s.beginChildren := by
  unfold beginChildren
  split
  · exact opensOne_of_frames rfl
  · next h => simp [OpensOne, h]

/-- Whether a step went forward, and opened at most one frame. -/
def Forward (s t : ScanState) : Prop :=
  t.cursor.after.length < s.cursor.after.length ∧ OpensOne s t

theorem forward_advance {s t : ScanState} {n : Nat} (hs : s.cursor.after ≠ [])
    (ht : t.cursor = s.cursor) (ho : OpensOne s t) (hn : 0 < n) : Forward s (t.advance n) := by
  have := List.length_pos_iff.mpr hs
  refine ⟨?_, ho⟩
  simp only [cursor_advance, ht, Cursor.after_skip, List.length_drop]
  omega

theorem forward_same {s : ScanState} {n : Nat} (hs : s.cursor.after ≠ []) (hn : 0 < n) :
    Forward s (s.advance n) :=
  forward_advance hs rfl (opensOne_of_frames rfl) hn

theorem forward_push {s : ScanState} {f : Frame} {n : Nat} (hs : s.cursor.after ≠ [])
    (hn : 0 < n) : Forward s ((s.push f).advance n) :=
  forward_advance hs rfl (opensOne_push s f) hn

theorem forward_enter {s : ScanState} {mode : Mode} {quote : Text} {n : Nat}
    (hs : s.cursor.after ≠ []) (hn : 0 < n) : Forward s ((s.enter mode quote).advance n) :=
  forward_advance hs rfl (opensOne_of_frames rfl) hn

theorem forward_leave {s : ScanState} {n : Nat} (hs : s.cursor.after ≠ []) (hn : 0 < n) :
    Forward s (s.leave.advance n) :=
  forward_advance hs rfl (opensOne_of_frames rfl) hn

theorem forward_readOpeningTag {s : ScanState} (hs : s.cursor.after ≠ []) (rest : Text) :
    Forward s (s.readOpeningTag rest) := by
  unfold readOpeningTag
  split
  · exact forward_push hs (by omega)
  · exact forward_push hs (by omega)

theorem forward_readClosingTag {s : ScanState} (hs : s.cursor.after ≠ []) (rest : Text) :
    Forward s (s.readClosingTag rest) := by
  unfold readClosingTag
  split
  · exact forward_advance hs (by simp) (opensOne_closeTag _ _ _) (by omega)
  · exact forward_same hs (by omega)

theorem forward_stepString {s : ScanState} (hs : s.cursor.after ≠ []) (x : Char) :
    Forward s (s.stepString x) := by
  unfold stepString
  split
  · exact forward_same hs (by omega)
  · split
    · exact forward_leave hs (by omega)
    · exact forward_same hs (by omega)

theorem forward_stepLineComment {s : ScanState} (hs : s.cursor.after ≠ []) (x : Char) :
    Forward s (s.stepLineComment x) := by
  unfold stepLineComment
  split
  · exact forward_leave hs (by omega)
  · exact forward_same hs (by omega)

theorem forward_stepBlockComment {s : ScanState} (hs : s.cursor.after ≠ []) (x : Char)
    (y : Option Char) : Forward s (s.stepBlockComment x y) := by
  unfold stepBlockComment
  split
  · exact forward_leave hs (by omega)
  · exact forward_same hs (by omega)

theorem forward_stepMarkup {s : ScanState} (hs : s.cursor.after ≠ []) (x : Char)
    (y : Option Char) (rest : Text) : Forward s (s.stepMarkup x y rest) := by
  unfold stepMarkup
  split
  · exact forward_push hs (by omega)
  · split
    · split
      · exact forward_readClosingTag hs _
      · split
        · exact forward_readOpeningTag hs _
        · exact forward_same hs (by omega)
    · exact forward_same hs (by omega)

theorem forward_stepScript {s : ScanState} (hs : s.cursor.after ≠ []) (o : ScanOptions) (x : Char)
    (y : Option Char) (rest : Text) : Forward s (stepScript o s x y rest) := by
  unfold stepScript
  split
  · exact forward_enter hs (by omega)
  split
  · exact forward_enter hs (by omega)
  split
  · exact forward_enter hs (by omega)
  split
  · exact forward_push hs (by omega)
  split
  · exact forward_advance hs (by simp) (opensOne_closeBracket _ _ _) (by omega)
  split
  · split
    · exact forward_readClosingTag hs _
    · split
      · exact forward_readOpeningTag hs _
      · exact forward_same hs (by omega)
  · exact forward_same hs (by omega)

/-- Whether a step closed a frame without going forward. -/
def Closing (s t : ScanState) : Prop :=
  t.cursor = s.cursor ∧ t.stack.frames.length < s.stack.frames.length

theorem stepAttrs_forward_or_closing {s : ScanState} {top : Frame} {fs : List Frame}
    (hs : s.cursor.after ≠ []) (hf : s.stack.frames = top :: fs) (o : ScanOptions) (x : Char)
    (y : Option Char) : Forward s (stepAttrs o s top x y) ∨ Closing s (stepAttrs o s top x y) := by
  unfold stepAttrs
  split
  · exact .inl (forward_enter hs (by omega))
  split
  · exact .inl (forward_push hs (by omega))
  split
  · exact .inl (forward_advance hs rfl (opensOne_pop s) (by omega))
  split
  · split
    · exact .inl (forward_advance hs rfl (opensOne_pop s) (by omega))
    · exact .inl (forward_advance hs (by simp) (opensOne_beginChildren s) (by omega))
  split
  · exact .inr ⟨rfl, by simp [pop, report, BracketStack.pop, hf]⟩
  split
  · exact .inl (forward_advance hs rfl (opensOne_of_frames rfl) (by omega))
  · exact .inl (forward_same hs (by omega))

theorem stepNormal_forward_or_closing {s : ScanState} (hs : s.cursor.after ≠ [])
    (o : ScanOptions) (x : Char) (y : Option Char) (rest : Text) :
    Forward s (stepNormal o s x y rest) ∨ Closing s (stepNormal o s x y rest) := by
  unfold stepNormal
  split
  · exact .inl (forward_stepScript hs o x y rest)
  · rename_i top fs hf
    split
    · split
      · exact .inl (forward_stepScript hs o x y rest)
      · exact stepAttrs_forward_or_closing hs hf o x y
      · exact .inl (forward_stepMarkup hs x y rest)
    · exact .inl (forward_stepScript hs o x y rest)

theorem step_forward_or_closing {s : ScanState} (hs : s.cursor.after ≠ []) (o : ScanOptions)
    (x : Char) (rest : Text) : Forward s (step o s x rest) ∨ Closing s (step o s x rest) := by
  unfold step
  split
  · exact .inl (forward_stepString hs x)
  · exact .inl (forward_stepLineComment hs x)
  · exact .inl (forward_stepBlockComment hs x _)
  · simpa [Forward, OpensOne, Closing] using stepNormal_forward_or_closing hs o x _ rest

/-- A step leaves less to do. -/
theorem work_next? {o : ScanOptions} {s t : ScanState} (h : next? o s = some t) :
    t.work < s.work := by
  unfold next? at h
  split at h
  · cases h
  · split at h
    · cases h
    · rename_i x rest hs
      obtain rfl := Option.some.inj h
      have hs' : s.cursor.after ≠ [] := by simp [hs]
      rcases step_forward_or_closing hs' o x rest with ⟨hc, hf⟩ | ⟨hc, hf⟩
      · unfold OpensOne at hf
        unfold work
        omega
      · unfold work
        rw [hc]
        omega

/-- The last place of a walk. -/
def run (o : ScanOptions) (s : ScanState) : ScanState :=
  match _h : next? o s with
  | none => s
  | some t => run o t
termination_by s.work
decreasing_by exact work_next? _h

end ScanState

/-! ### The outcome -/

/-- What a scan found. -/
structure Scan where
  /-- What is wrong, in the order in which it was found. -/
  issues : List Issue
  /-- The frames still open at the end, outermost first. -/
  unclosed : List Frame
  /-- Where the walk ended because all was closed. -/
  closedAt? : Option Nat
  deriving DecidableEq, Repr

namespace Scan

/-- Whether nothing is wrong. -/
def isBalanced (r : Scan) : Bool := r.issues.isEmpty

/-- The wording of all that is wrong. -/
def messages (r : Scan) : List Text := r.issues.map Issue.message

/-- Whether all that is wrong is that something was never closed. -/
def isOnlyUnclosed (r : Scan) : Bool :=
  match r.issues with
  | [i] => i.kind == .unclosed
  | _ => false

/-- The tags still open at the end, outermost first. -/
def unclosedTags (r : Scan) : List Frame := r.unclosed.filter (·.kind == .tag)

/-- How badly balanced a text is: the number of issues and of open frames. -/
def cost (r : Scan) : Nat := r.issues.length + r.unclosed.length

end Scan

namespace ScanState

/-- The issue of a string or a comment that is not finished. -/
def openText (t : Text) (s : ScanState) : List Issue :=
  let start := s.stack.modeStart.getD 0
  match s.stack.mode with
  | .string => [⟨.unterminatedString s.stack.quote (t.lineOf start), start, none⟩]
  | .blockComment => [⟨.unterminatedComment (t.lineOf start), start, none⟩]
  | _ => []

/-- The issue of the frames that are still open. -/
def openFrames (s : ScanState) : List Issue :=
  match s.stack.frames.getLast? with
  | none => []
  | some outermost => [⟨.unclosed s.stack.frames.reverse, outermost.pos, none⟩]

/-- What a walk over `t` found that ended here. -/
def outcome (t : Text) (s : ScanState) : Scan :=
  if s.closedAt?.isSome then ⟨s.issues.reverse, [], s.closedAt?⟩
  else ⟨s.issues.reverse ++ s.openText t ++ s.openFrames, s.stack.frames.reverse, none⟩

end ScanState

namespace Scan

/-- Where the walk over a text begins. Nothing before the start is looked at. -/
def start (t : Text) (start : Nat) : ScanState := { cursor := .startingAt t start }

/-- Scan a text from offset `start` with the given options. -/
def ofTextWith (t : Text) (start : Nat) (o : ScanOptions) : Scan :=
  ((Scan.start t start).run o).outcome t

/-- Scan a text from offset `start` to its end, tags and all. -/
def ofTextFrom (t : Text) (start : Nat) : Scan := ofTextWith t start { limit := t.length }

/-- Scan a whole text, tags and all. -/
def ofText (t : Text) : Scan := ofTextFrom t 0

end Scan

/-- The offset just past the brace that closes the block whose brace stands at offset `pos`. -/
def Text.blockEnd? (t : Text) (pos : Nat) : Option Nat :=
  (Scan.ofTextWith t pos { limit := t.length, stopsWhenBalanced := true }).closedAt?

end SnippetGate
