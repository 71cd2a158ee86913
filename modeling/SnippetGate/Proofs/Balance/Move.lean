import Mathlib
import SnippetGate.Balance.Scan

/-!
# What a step of a walk does

A step looks at the next characters and decides on a move; the move alone changes the state. The
decision depends on the mode, on the innermost frame, on the character, on what may be a tag after
it and on whether an expression can follow what stands before it. Two walks that see the same of
these make the same move.
-/

namespace SnippetGate

/-- What a step of a walk does. -/
inductive Move where
  /-- Go on over some characters. -/
  | pass (n : Nat)
  /-- Begin a string or a comment with some characters. -/
  | enter (mode : Mode) (quote : Text) (n : Nat)
  /-- End a string or a comment with some characters. -/
  | leave (n : Nat)
  /-- Open a bracket. -/
  | openBracket (x : Char)
  /-- Open a tag, up to its attributes or its content. -/
  | openTag (name : Text) (phase : Phase) (n : Nat)
  /-- Read a closing bracket. -/
  | closeBracket (opener x : Char)
  /-- Read a closing tag. -/
  | closeTag (name : Text) (n : Nat)
  /-- Close the innermost tag, which has no content. -/
  | endTag (n : Nat)
  /-- The content of the innermost tag begins. -/
  | beginChildren
  /-- The innermost tag runs into another tag. -/
  | cutShort (top : Frame)
  /-- A closing bracket stands among the attributes of the innermost tag. -/
  | stray (top : Frame) (x : Char)
  deriving DecidableEq

namespace Move

/-- The state after a move. -/
def apply (s : ScanState) : Move → ScanState
  | pass n => s.advance n
  | enter mode quote n => (s.enter mode quote).advance n
  | leave n => s.leave.advance n
  | openBracket x => (s.push (.bracket x s.cursor.pos)).advance 1
  | openTag name phase n => (s.push ⟨.tag, name, s.cursor.pos, phase⟩).advance n
  | closeBracket opener x => (s.closeBracket opener x).advance 1
  | closeTag name n => (s.closeTag name (s.cursor.pos + n)).advance n
  | endTag n => s.pop.advance n
  | beginChildren => s.beginChildren.advance 1
  | cutShort top => (s.report ⟨.unterminatedTag top, top.pos, none⟩).pop
  | stray top x =>
    (s.report ⟨.mismatch top (.bracket x) false, s.cursor.pos, some (s.cursor.pos + 1)⟩).advance 1

/-- How many characters a move takes. -/
def length : Move → Nat
  | pass n => n
  | enter _ _ n => n
  | leave n => n
  | openBracket _ => 1
  | openTag _ _ n => n
  | closeBracket _ _ => 1
  | closeTag _ n => n
  | endTag n => n
  | beginChildren => 1
  | cutShort _ => 0
  | stray _ _ => 1

@[simp] theorem cursor_apply (s : ScanState) (m : Move) :
    (m.apply s).cursor = s.cursor.skip m.length := by
  cases m <;> simp [apply, length, Cursor.skip]

/-! ### Decisions -/

/-- The move inside of a string. -/
def inString (quote : Text) (x : Char) : Move :=
  if x = '\\' then pass 2 else if quote = [x] then leave 1 else pass 1

/-- The move inside of a comment that ends with the line. -/
def inLineComment (x : Char) : Move := if x = '\n' then leave 1 else pass 1

/-- The move inside of a comment that ends with a star and a slash. -/
def inBlockComment (x : Char) (y : Option Char) : Move :=
  if x = '*' ∧ y = some '/' then leave 2 else pass 1

/-- The move at the opening tag whose `<` stands before `rest`. -/
def opening (rest : Text) : Move :=
  if rest.head? = some '>' then openTag [] .children 2
  else openTag ((tagName? rest).getD []) .attrs (((tagName? rest).getD []).length + 1)

/-- The move at what may be a closing tag, whose first two characters stand before `rest`. -/
def closing (rest : Text) : Move :=
  match closingTagRest? rest with
  | some (name, n) => closeTag name (n + 2)
  | none => pass 1

/-- The move between the tags of an element. -/
def inMarkup (x : Char) (y : Option Char) (rest : Text) : Move :=
  if x = '{' then openBracket x
  else if x = '<' then
    if y = some '/' then closing rest.tail
    else if y = some '>' ∨ (tagName? rest).isSome then opening rest
    else pass 1
  else pass 1

/-- The move inside of the tag `top`. -/
def inAttrs (o : ScanOptions) (top : Frame) (x : Char) (y : Option Char) : Move :=
  if x = '\x22' ∨ x = '\x27' then enter .string [x] 1
  else if x = '{' then openBracket x
  else if x = '/' ∧ y = some '>' then endTag 2
  else if x = '>' then (if isVoid top.token then endTag 1 else beginChildren)
  else if x = '<' then cutShort top
  else if (o.openerOf? x).isSome then stray top x
  else pass 1

/-- The move in script, where `invited` tells whether an expression can follow. -/
def inScript (o : ScanOptions) (invited : Bool) (x : Char) (y : Option Char) (rest : Text) :
    Move :=
  if x = '\x22' ∨ x = '\x27' ∨ x = '\x60' then enter .string [x] 1
  else if x = '/' ∧ y = some '/' then enter .lineComment [] 2
  else if x = '/' ∧ y = some '*' then enter .blockComment [] 2
  else if o.isOpener x then openBracket x
  else
    match o.openerOf? x with
    | some opener => closeBracket opener x
    | none =>
      if o.tracksTags ∧ x = '<' then
        if y = some '/' then closing rest.tail
        else if (rest.head? = some '>' ∨ (tagName? rest).isSome) ∧ invited then opening rest
        else pass 1
      else pass 1

/-- The move outside of strings and comments, under the given frames. -/
def outside (o : ScanOptions) (frames : List Frame) (invited : Bool) (x : Char) (y : Option Char)
    (rest : Text) : Move :=
  match frames with
  | [] => inScript o invited x y rest
  | top :: _ =>
    if o.tracksTags then
      match top.context with
      | .script => inScript o invited x y rest
      | .attrs => inAttrs o top x y
      | .markup => inMarkup x y rest
    else inScript o invited x y rest

/-- The move for the character `x`, which stands before `y` and before `rest`. -/
def next (o : ScanOptions) (stack : BracketStack) (invited : Bool) (x : Char) (y : Option Char)
    (rest : Text) : Move :=
  match stack.mode with
  | .string => inString stack.quote x
  | .lineComment => inLineComment x
  | .blockComment => inBlockComment x y
  | .normal => outside o stack.frames invited x y rest

end Move

namespace ScanState

open Move

/-! ### Steps are moves -/

theorem readOpeningTag_eq (s : ScanState) (rest : Text) :
    s.readOpeningTag rest = (opening rest).apply s := by
  unfold readOpeningTag opening
  split <;> rfl

theorem readClosingTag_eq (s : ScanState) (rest : Text) :
    s.readClosingTag rest = (closing rest).apply s := by
  unfold readClosingTag closing
  cases closingTagRest? rest <;> rfl

theorem stepString_eq (s : ScanState) (x : Char) :
    s.stepString x = (inString s.stack.quote x).apply s := by
  unfold stepString inString
  split
  · rfl
  · split <;> rfl

theorem stepLineComment_eq (s : ScanState) (x : Char) :
    s.stepLineComment x = (inLineComment x).apply s := by
  unfold stepLineComment inLineComment
  split <;> rfl

theorem stepBlockComment_eq (s : ScanState) (x : Char) (y : Option Char) :
    s.stepBlockComment x y = (inBlockComment x y).apply s := by
  unfold stepBlockComment inBlockComment
  split <;> rfl

theorem stepMarkup_eq (s : ScanState) (x : Char) (y : Option Char) (rest : Text) :
    s.stepMarkup x y rest = (inMarkup x y rest).apply s := by
  unfold stepMarkup inMarkup
  split
  · rfl
  split
  · split
    · exact readClosingTag_eq s _
    · split
      · exact readOpeningTag_eq s _
      · rfl
  · rfl

theorem stepAttrs_eq (o : ScanOptions) (s : ScanState) (top : Frame) (x : Char)
    (y : Option Char) : stepAttrs o s top x y = (inAttrs o top x y).apply s := by
  unfold stepAttrs inAttrs
  split
  · rfl
  split
  · rfl
  split
  · rfl
  split
  · split <;> rfl
  split
  · rfl
  split <;> rfl

theorem stepScript_eq (o : ScanOptions) (s : ScanState) (x : Char) (y : Option Char)
    (rest : Text) :
    stepScript o s x y rest =
      (inScript o (expressionCanFollow s.cursor.before) x y rest).apply s := by
  have markup : opensMarkup s.cursor.before rest = true ↔
      (rest.head? = some '>' ∨ (tagName? rest).isSome) ∧
        expressionCanFollow s.cursor.before = true := by
    simp [opensMarkup]
  unfold stepScript inScript
  split
  · rfl
  split
  · rfl
  split
  · rfl
  split
  · rfl
  cases o.openerOf? x with
  | some opener => rfl
  | none =>
    dsimp only
    split
    · split
      · exact readClosingTag_eq s _
      · simp only [markup]
        split
        · exact readOpeningTag_eq s _
        · rfl
    · rfl

theorem stepNormal_eq (o : ScanOptions) (s : ScanState) (x : Char) (y : Option Char)
    (rest : Text) :
    stepNormal o s x y rest =
      (outside o s.stack.frames (expressionCanFollow s.cursor.before) x y rest).apply s := by
  unfold stepNormal outside
  cases s.stack.frames with
  | nil => exact stepScript_eq o s x y rest
  | cons top fs =>
    dsimp only
    split
    · cases top.context with
      | script => exact stepScript_eq o s x y rest
      | attrs => exact stepAttrs_eq o s top x y
      | markup => exact stepMarkup_eq s x y rest
    · exact stepScript_eq o s x y rest

/-- The move that the walk makes for the next character `x`, which stands before `rest`. -/
def move (o : ScanOptions) (s : ScanState) (x : Char) (rest : Text) : Move :=
  Move.next o s.stack (expressionCanFollow s.cursor.before) x (second? o s rest) rest

/-- A step is its move; outside of strings and comments the balance is noted as well. -/
theorem step_eq_apply (o : ScanOptions) (s : ScanState) (x : Char) (rest : Text) :
    step o s x rest =
      if s.stack.mode = .normal then ((move o s x rest).apply s).noteBalance o
      else (move o s x rest).apply s := by
  unfold step move Move.next
  cases s.stack.mode with
  | normal => rw [if_pos rfl, stepNormal_eq]
  | string => rw [if_neg nofun]; exact stepString_eq s x
  | lineComment => rw [if_neg nofun]; exact stepLineComment_eq s x
  | blockComment => rw [if_neg nofun]; exact stepBlockComment_eq s x _

/-- Where the frames are divided depends only on which delimiters they are. -/
theorem splitAtTag?_map {g : Frame → Frame} (hkind : ∀ f, (g f).kind = f.kind)
    (htoken : ∀ f, (g f).token = f.token) (name : Text) (fs : List Frame) :
    splitAtTag? name (fs.map g) =
      (splitAtTag? name fs).map fun (inner, outer) => (inner.map g, outer.map g) := by
  induction fs with
  | nil => rfl
  | cons f fs ih =>
    simp only [List.map_cons, splitAtTag?, hkind, htoken, ih]
    split
    · rfl
    · split
      · rfl
      · simp only [Option.map_map]
        rfl

end ScanState

end SnippetGate
