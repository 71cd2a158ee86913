import SnippetGate.Tsx.Node

/-!
# Places in a program

A place is what follows, with the number of bytes and lines before it. Between the tokens of a
program stand blanks and comments: comments of slashes and stars may stand everywhere, comments of
angle brackets and hyphens only where no operator can stand.
-/

namespace SnippetGate.Tsx

/-- A place in a program. -/
structure Place where
  /-- The characters that follow. -/
  rest : Text
  /-- The number of bytes before it. -/
  byte : Nat
  /-- The number of newlines before it. -/
  row : Nat

namespace Place

/-- The place after one more character. -/
def next (p : Place) : Place :=
  match p.rest with
  | [] => p
  | c :: r => ⟨r, p.byte + c.utf8Size, if c = '\n' then p.row + 1 else p.row⟩

/-- The place `n` characters on. -/
def skip : Nat → Place → Place
  | 0, p => p
  | n + 1, p => skip n p.next

theorem rest_skip (n : Nat) (p : Place) : (p.skip n).rest = p.rest.drop n := by
  induction n generalizing p with
  | zero => rfl
  | succ n ih =>
    rw [skip, ih, next]
    split <;> simp_all

/-- What lies between two places. -/
def extentTo (p q : Place) : Extent := ⟨p.byte, q.byte, p.row⟩

end Place

/-! ### Blanks -/

/-- Whether a character separates lines and paragraphs and nothing else. -/
def isSeparator (c : Char) : Bool := c == '\u2028' || c == '\u2029'

/-- Whether a character separates tokens and is nothing else. -/
def isSpace (c : Char) : Bool :=
  c == ' ' || c == '\t' || c == '\n' || c == '\r' || c == '\u00A0' || c == '\u1680' ||
    ('\u2000' ≤ c && c ≤ '\u200B') || isSeparator c || c == '\u202F' || c == '\u205F' ||
    c == '\u2060' || c == '\u3000' || c == '\uFEFF'

/-- The length of the blanks at the beginning of a text. -/
def spaces (t : Text) : Nat := (t.takeWhile isSpace).length

/-! ### Comments -/

/-- The length of the rest of a comment that ends with the line. -/
def lineCommentRest (t : Text) : Nat :=
  (t.takeWhile fun c => c != '\n' && c != '\r' && !isSeparator c).length

/-- The length of the rest of a comment that ends with a star and a slash. -/
def blockCommentRest : Text → Option Nat
  | [] => none
  | '*' :: '/' :: _ => some 2
  | _ :: r => (blockCommentRest r).map (1 + ·)

/-- The length of the comment at the beginning of a text. -/
def comment? : Text → Option Nat
  | '/' :: '/' :: r => some (2 + lineCommentRest r)
  | '/' :: '*' :: r => (blockCommentRest r).map (2 + ·)
  | _ => none

/-- The length of the rest of a remark. It ends with the line. -/
def remarkRest (t : Text) : Nat := (t.takeWhile fun c => c != '\n' && !isSeparator c).length

/-- The length of the remark at the beginning of a text: a comment that is opened or closed as
comments of markup are. -/
def remark? : Text → Option Nat
  | '<' :: '!' :: '-' :: '-' :: r => some (4 + remarkRest r)
  | '-' :: '-' :: '>' :: r => some (3 + remarkRest r)
  | _ => none

theorem two_le_of_comment? {t : Text} {n : Nat} (h : comment? t = some n) :
    2 ≤ n ∧ t ≠ [] := by
  unfold comment? at h
  split at h
  · obtain rfl := Option.some.inj h
    exact ⟨by omega, by simp⟩
  · obtain ⟨m, -, rfl⟩ := Option.map_eq_some_iff.1 h
    exact ⟨by omega, by simp⟩
  · cases h

theorem three_le_of_remark? {t : Text} {n : Nat} (h : remark? t = some n) :
    3 ≤ n ∧ t ≠ [] := by
  unfold remark? at h
  split at h
  · obtain rfl := Option.some.inj h
    exact ⟨by omega, by simp⟩
  · obtain rfl := Option.some.inj h
    exact ⟨by omega, by simp⟩
  · cases h

end SnippetGate.Tsx
