import SnippetGate.Pattern.Preferred

/-!
# Searching and replacing

The leftmost piece of a pattern in a text, all of its pieces from the left without overlap, and
the text with those pieces replaced.
-/

namespace SnippetGate

/-- A piece of a pattern found in a text. -/
structure Match where
  /-- Where the piece begins. -/
  first : Cursor
  /-- Where the piece ends, with the groups that it took. -/
  last : Progress

namespace Match

/-- The offset where the piece begins. -/
def start (m : Match) : Nat := m.first.pos

/-- The offset where the piece ends. -/
def stop (m : Match) : Nat := m.last.cursor.pos

/-- The piece itself. -/
def text (m : Match) : Text := m.first.between m.last.cursor

/-- The text that a group took; nothing for a group that took no part. -/
def group (m : Match) (n : Nat) : Text := ((m.last.group? n).map Capture.text).getD []

/-- The offset where a group ends; the end of the piece for a group that took no part. -/
def groupStop (m : Match) (n : Nat) : Nat := ((m.last.group? n).map Capture.stop).getD m.stop

end Match

namespace Pattern

/-- The preferred piece that begins at a place. -/
def matchAt? (p : Pattern) (c : Cursor) : Option Match :=
  (p.firstEnd? some ⟨c, []⟩).map (Match.mk c)

theorem matchAt?_eq_head? (p : Pattern) (c : Cursor) :
    p.matchAt? c = (p.ends ⟨c, []⟩).head?.map (Match.mk c) := by
  rw [matchAt?, firstEnd?_some_eq_head?]

/-- A sign that the end is the end of the text. -/
def atEnd? (s : Progress) : Option Unit := if s.cursor.after.isEmpty then some () else none

/-- Whether a whole text is a piece of the pattern. -/
def matchesAll (p : Pattern) (t : Text) : Bool :=
  (p.firstEnd? atEnd? ⟨.ofText t, []⟩).isSome

/-- The leftmost piece that begins at the given place or after it. -/
def searchIn? (p : Pattern) (pos : Nat) (before : Text) : Text → Option Match
  | [] => p.matchAt? ⟨pos, before, []⟩
  | x :: r =>
    match p.matchAt? ⟨pos, before, x :: r⟩ with
    | some m => some m
    | none => searchIn? p (pos + 1) (x :: before) r

/-- The leftmost piece that begins at a place or after it. -/
def searchFrom? (p : Pattern) (c : Cursor) : Option Match := searchIn? p c.pos c.before c.after

/-- The leftmost piece in a text. -/
def search? (p : Pattern) (t : Text) : Option Match := p.searchFrom? (.ofText t)

/-- Whether a text has a piece of the pattern. -/
def occursIn (p : Pattern) (t : Text) : Bool := (p.search? t).isSome

/-- At most `n` pieces from a place on. After an empty piece the search goes on one character
later. -/
def findUpTo (p : Pattern) : Nat → Cursor → List Match
  | 0, _ => []
  | n + 1, c =>
    match p.searchFrom? c with
    | none => []
    | some m =>
      let rest := m.last.cursor
      m :: (if m.first.pos < rest.pos then findUpTo p n rest
        else if rest.after.isEmpty then []
        else findUpTo p n rest.next)

/-- All pieces in a text, from the left and without overlap. -/
def findAll (p : Pattern) (t : Text) : List Match := p.findUpTo (t.length + 1) (.ofText t)

/-- The last of the pieces in a text. -/
def findLast? (p : Pattern) (t : Text) : Option Match := (p.findAll t).getLast?

/-- The text from offset `pos` on, with the pieces replaced. -/
def fillIn (f : Match → Text) : List Match → Nat → Text → Text
  | [], _, rest => rest
  | m :: ms, pos, rest =>
    rest.take (m.start - pos) ++ f m ++ fillIn f ms m.stop (rest.drop (m.stop - pos))

/-- A text with all pieces of the pattern replaced. -/
def replaceAll (p : Pattern) (f : Match → Text) (t : Text) : Text := fillIn f (p.findAll t) 0 t

/-- A text with the leftmost piece of the pattern replaced. -/
def replaceFirst (p : Pattern) (f : Match → Text) (t : Text) : Text :=
  fillIn f (p.search? t).toList 0 t

end Pattern

end SnippetGate
