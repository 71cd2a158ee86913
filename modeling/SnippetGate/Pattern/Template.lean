import SnippetGate.Pattern.Search

/-!
# Replacement templates

A template is a text in which a backslash introduces an escape: a control character, a character
by its octal code, or a group of the piece that the template replaces. Reading a template fails
at the first escape that means nothing.
-/

namespace SnippetGate

/-- A part of a template. -/
inductive TemplatePart where
  /-- This character. -/
  | literal (x : Char)
  /-- What the group took. -/
  | group (n : Nat)
  deriving DecidableEq, Repr

/-- Why a text is no template. -/
inductive TemplateFault where
  /-- A backslash ends the text. -/
  | endsInBackslash
  /-- A backslash before a letter that has no meaning. -/
  | badEscape (letter : Char)
  /-- A group that the pattern does not have. -/
  | noSuchGroup (n : Nat)
  /-- An octal code past 377. -/
  | octalTooLarge (digits : Text)
  /-- No group name in angle brackets after the letter g. -/
  | missingName
  /-- A group name without an end. -/
  | openName
  /-- Nothing in the angle brackets. -/
  | emptyName
  /-- Something in the angle brackets that cannot be a group. -/
  | badName (name : Text)
  /-- A name in the angle brackets that no group has. -/
  | unknownName (name : Text)
  deriving DecidableEq, Repr

namespace TemplateFault

/-- The wording of a fault. -/
def wording : TemplateFault → Text
  | endsInBackslash => "bad escape (end of pattern)".toList
  | badEscape x => "bad escape \\".toList ++ [x]
  | noSuchGroup n => "invalid group reference ".toList ++ Text.ofNat n
  | octalTooLarge ds =>
    "octal escape value \\".toList ++ ds ++ " outside of range 0-0o377".toList
  | missingName => "missing <".toList
  | openName => "missing >, unterminated name".toList
  | emptyName => "missing group name".toList
  | badName n => "bad character in group name \x27".toList ++ n ++ ['\x27']
  | unknownName n => "unknown group name \x27".toList ++ n ++ ['\x27']

/-- Whether the message for a fault tells where it is. -/
def isPlaced : TemplateFault → Bool
  | unknownName _ => false
  | _ => true

/-- The message for a fault at an offset of a template. In a template of several lines the line
and the column follow. -/
def message (f : TemplateFault) (template : Text) (pos : Nat) : Text :=
  if !f.isPlaced then f.wording else
  let base := f.wording ++ " at position ".toList ++ Text.ofNat pos
  if template.contains '\n' then
    let head := template.take pos
    let column := (head.reverse.takeWhile (· != '\n')).length + 1
    base ++ " (line ".toList ++ Text.ofNat (head.count '\n' + 1) ++ ", column ".toList ++
      Text.ofNat column ++ [')']
  else base

end TemplateFault

namespace Template

/-- The control character that a letter after a backslash stands for. -/
def control? : Char → Option Char
  | 'a' => some '\x07'
  | 'b' => some '\x08'
  | 'f' => some '\x0c'
  | 'n' => some '\n'
  | 'r' => some '\r'
  | 't' => some '\t'
  | 'v' => some '\x0b'
  | '\\' => some '\\'
  | _ => none

/-- Whether a character is an octal digit. -/
def isOctal (x : Char) : Bool := '0' ≤ x && x ≤ '7'

/-- The number that digits write in a base. -/
def number (base : Nat) (ds : Text) : Nat :=
  ds.foldl (fun n x => base * n + (x.toNat - '0'.toNat)) 0

/-- A reference to a group, if the pattern has it. -/
def reference (groups n : Nat) : Except TemplateFault TemplatePart :=
  if n ≤ groups then .ok (.group n) else .error (.noSuchGroup n)

/-- The group named in angle brackets, with the number of characters read. A fault comes with
its distance from the character after the letter g. -/
def named (groups : Nat) (r : Text) : Except (TemplateFault × Nat) (TemplatePart × Nat) :=
  match r with
  | '<' :: r =>
    let name := r.takeWhile (· != '>')
    if name.length = r.length then .error (if name.isEmpty then .emptyName else .openName, 1)
    else if name.isEmpty then .error (.emptyName, 1)
    else if name.all Char.isDigit then
      match reference groups (number 10 name) with
      | .ok p => .ok (p, name.length + 2)
      | .error f => .error (f, 1)
    else if name.all isWord then .error (.unknownName name, 1)
    else .error (.badName name, 1)
  | _ => .error (.missingName, 0)

/-- What the characters after a backslash mean, with the number of those read. A fault comes with
its distance from the character after the backslash, or lies at the backslash itself. -/
def escape (groups : Nat) :
    Text → Except (TemplateFault × Option Nat) (List TemplatePart × Nat)
  | [] => .error (.endsInBackslash, none)
  | 'g' :: r =>
    match named groups r with
    | .ok (p, n) => .ok ([p], n + 1)
    | .error (f, n) => .error (f, some (n + 1))
  | '0' :: r =>
    let ds := (r.take 2).takeWhile isOctal
    .ok ([.literal (Char.ofNat (number 8 ds % 256))], ds.length + 1)
  | x :: r =>
    if x.isDigit then
      let ds := x :: (r.take 1).takeWhile Char.isDigit
      let octal := x :: (r.take 2).takeWhile isOctal
      if octal.length = 3 && isOctal x then
        if number 8 octal > 255 then .error (.octalTooLarge octal, none)
        else .ok ([.literal (Char.ofNat (number 8 octal))], 3)
      else
        match reference groups (number 10 ds) with
        | .ok p => .ok ([p], ds.length)
        | .error f => .error (f, some 0)
    else
      match control? x with
      | some y => .ok ([.literal y], 1)
      | none =>
        if x.isAlpha then .error (.badEscape x, none) else .ok ([.literal '\\', .literal x], 1)

/-- Read the rest of a template, which begins at offset `pos`, after leaving out `skip` characters
that belong to an escape already read. -/
def readFrom (groups : Nat) :
    Nat → Nat → Text → Except (TemplateFault × Nat) (List TemplatePart)
  | _, _, [] => .ok []
  | skip + 1, pos, _ :: r => readFrom groups skip (pos + 1) r
  | 0, pos, x :: r =>
    if x = '\\' then
      match escape groups r with
      | .error (f, none) => .error (f, pos)
      | .error (f, some n) => .error (f, pos + 1 + n)
      | .ok (ps, n) => (readFrom groups n (pos + 1) r).map (ps ++ ·)
    else (readFrom groups 0 (pos + 1) r).map (.literal x :: ·)

/-- The parts of a template for a pattern with the given number of groups, or the message that
tells what is wrong with it. -/
def parse (groups : Nat) (template : Text) : Except Text (List TemplatePart) :=
  match readFrom groups 0 0 template with
  | .ok ps => .ok ps
  | .error (f, pos) => .error (f.message template pos)

/-- The text that a template gives for a piece. Group zero is the whole piece. -/
def fill (parts : List TemplatePart) (m : Match) : Text :=
  parts.flatMap fun
    | .literal x => [x]
    | .group 0 => m.text
    | .group n => m.group n

end Template

end SnippetGate
