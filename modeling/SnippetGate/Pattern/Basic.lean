import SnippetGate.Text.Cursor
import SnippetGate.Text.Lines
import SnippetGate.Text.Word

/-!
# Patterns

A pattern describes pieces of text. `Pattern.ends` lists the places where a piece that begins at
a given place can end, the preferred one first: an earlier alternative comes before a later one,
a greedy repetition tries more copies before fewer and a lazy one fewer before more. A search
takes the first place of the text with an end, and the first end there.
-/

namespace SnippetGate

/-- What a numbered group of a pattern took. -/
structure Capture where
  /-- The offset where the group begins. -/
  start : Nat
  /-- The offset where the group ends. -/
  stop : Nat
  /-- The text of the group. -/
  text : Text
  deriving DecidableEq, Repr

/-- A description of pieces of text. -/
inductive Pattern where
  /-- The empty piece. -/
  | empty
  /-- One character of a class. -/
  | one (p : Char → Bool)
  /-- Any number of characters of a class. -/
  | run (p : Char → Bool) (greedy : Bool)
  /-- A piece of the first pattern, then one of the second. -/
  | seq (a b : Pattern)
  /-- A piece of the first pattern or, if that leads nowhere, one of the second. -/
  | alt (a b : Pattern)
  /-- Any number of pieces of a pattern, each of at least one character. -/
  | star (a : Pattern) (greedy : Bool)
  /-- A piece that is remembered under a number. -/
  | group (n : Nat) (a : Pattern)
  /-- The text that a group took before. -/
  | again (n : Nat)
  /-- Nothing, where a piece of the pattern follows. -/
  | ahead (a : Pattern)
  /-- Nothing, where no piece of the pattern follows. -/
  | notAhead (a : Pattern)
  /-- Nothing, where the character before is not in the class. -/
  | notAfter (p : Char → Bool)
  /-- Nothing, at the beginning of a line. -/
  | lineStart
  /-- Nothing, at the end of a line. -/
  | lineEnd
  /-- Nothing, at the end of the text or before a newline that ends it. -/
  | textEnd
  /-- Nothing, between a word character and something else. -/
  | wordEdge

/-- A place reached inside a pattern, with the groups taken on the way, the latest first. -/
structure Progress where
  cursor : Cursor
  captures : List (Nat × Capture)

namespace Progress

/-- Go on to another place. -/
def move (s : Progress) (c : Cursor) : Progress := { s with cursor := c }

/-- What the group `n` took last. -/
def group? (s : Progress) (n : Nat) : Option Capture := s.captures.lookup n

/-- Remember under the number `n` what lies between a place and the present one. -/
def remember (s : Progress) (n : Nat) (start : Cursor) : Progress :=
  { s with captures := (n, ⟨start.pos, s.cursor.pos, start.between s.cursor⟩) :: s.captures }

end Progress

namespace Cursor

/-- Whether the character before the place, if there is one, satisfies `p`. -/
def isAfter (c : Cursor) (p : Char → Bool) : Bool :=
  match c.before with
  | [] => false
  | x :: _ => p x

/-- Whether the character after the place, if there is one, satisfies `p`. -/
def isBefore (c : Cursor) (p : Char → Bool) : Bool :=
  match c.after with
  | [] => false
  | x :: _ => p x

/-- Whether the place is the beginning of a line. -/
def atLineStart (c : Cursor) : Bool := c.before.isEmpty || c.isAfter (· == '\n')

/-- Whether the place is the end of a line. -/
def atLineEnd (c : Cursor) : Bool := c.after.isEmpty || c.isBefore (· == '\n')

/-- Whether the place is the end of the text or stands before a newline that ends it. -/
def atTextEnd (c : Cursor) : Bool := c.after.isEmpty || c.after == ['\n']

/-- Whether just one of the two characters around the place is a word character. -/
def atWordEdge (c : Cursor) : Bool := c.isAfter isWord != c.isBefore isWord

/-- The places reached by going on over characters of a class, the farthest first, added in front
of those already reached. -/
def runFrom (p : Char → Bool) (pos : Nat) (before : Text) : Text → List Cursor → List Cursor
  | [], acc => ⟨pos, before, []⟩ :: acc
  | x :: r, acc =>
    if p x then runFrom p (pos + 1) (x :: before) r (⟨pos, before, x :: r⟩ :: acc)
    else ⟨pos, before, x :: r⟩ :: acc

/-- The places that some characters of a class lead to, the farthest first. -/
def runEnds (p : Char → Bool) (c : Cursor) : List Cursor := runFrom p c.pos c.before c.after []

end Cursor

namespace Pattern

/-- The places that up to `n` steps lead to, each of which has to make progress. -/
def repeatEnds (step : Progress → List Progress) (greedy : Bool) : Nat → Progress → List Progress
  | 0, s => [s]
  | n + 1, s =>
    let more := (step s).flatMap fun t =>
      if s.cursor.pos < t.cursor.pos then repeatEnds step greedy n t else []
    if greedy then more ++ [s] else s :: more

/-- The places where a piece that begins at `s` can end, in order of preference. -/
def ends : Pattern → Progress → List Progress
  | .empty, s => [s]
  | .one p, s => if s.cursor.isBefore p then [s.move s.cursor.next] else []
  | .run p greedy, s =>
    let far := s.cursor.runEnds p
    (if greedy then far else far.reverse).map s.move
  | .seq a b, s => (ends a s).flatMap (ends b)
  | .alt a b, s => ends a s ++ ends b s
  | .star a greedy, s => repeatEnds (ends a) greedy s.cursor.after.length s
  | .group n a, s => (ends a s).map (Progress.remember · n s.cursor)
  | .again n, s =>
    match s.group? n with
    | none => []
    | some g =>
      if g.text.isPrefixOf s.cursor.after then [s.move (s.cursor.skip g.text.length)] else []
  | .ahead a, s => if (ends a s).isEmpty then [] else [s]
  | .notAhead a, s => if (ends a s).isEmpty then [s] else []
  | .notAfter p, s => if s.cursor.isAfter p then [] else [s]
  | .lineStart, s => if s.cursor.atLineStart then [s] else []
  | .lineEnd, s => if s.cursor.atLineEnd then [s] else []
  | .textEnd, s => if s.cursor.atTextEnd then [s] else []
  | .wordEdge, s => if s.cursor.atWordEdge then [s] else []

/-! ### Building patterns -/

/-- The patterns one after the other. -/
def all : List Pattern → Pattern
  | [] => .empty
  | [a] => a
  | a :: as => .seq a (all as)

/-- One of the patterns, an earlier one before a later one. -/
def any : List Pattern → Pattern
  | [] => .notAhead .empty
  | [a] => a
  | a :: as => .alt a (any as)

/-- One given character. -/
def char (x : Char) : Pattern := .one (· == x)

/-- A given text. -/
def text (t : Text) : Pattern := all (t.map char)

/-- A given text. -/
def word (s : String) : Pattern := text s.toList

/-- A piece of the pattern if there is one, else nothing. -/
def opt (a : Pattern) : Pattern := .alt a .empty

/-- As many characters of a class as possible, at least one. -/
def many1 (p : Char → Bool) : Pattern := .seq (.one p) (.run p true)

/-- As few characters of a class as possible, at least one. -/
def few1 (p : Char → Bool) : Pattern := .seq (.one p) (.run p false)

/-- As many characters of a class as possible. -/
def many (p : Char → Bool) : Pattern := .run p true

/-- As few characters of a class as possible. -/
def few (p : Char → Bool) : Pattern := .run p false

/-- As many pieces of a pattern as possible, at least one. -/
def plus (a : Pattern) : Pattern := .seq a (.star a true)

/-- Any blanks. -/
def blanks : Pattern := many isBlank

/-- At least one blank. -/
def gap : Pattern := many1 isBlank

/-- Any spaces and tabs. -/
def indent : Pattern := many Text.isIndent

/-- A name of the script. -/
def name : Pattern := .seq (.one isNameStart) (many isNameChar)

end Pattern

end SnippetGate
