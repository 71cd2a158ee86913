import SnippetGate.Text.Basic

/-!
# Cursors

A cursor is a place in a text: the characters before it, nearest first, and the characters after
it. Looking back never leaves the characters before the cursor, so a cursor that starts in the
middle of a text, with nothing before it, reads the rest of the text as a text of its own.
-/

namespace SnippetGate

/-- A place in a text. -/
structure Cursor where
  /-- The offset of the place. -/
  pos : Nat
  /-- The characters before the place, nearest first. -/
  before : Text
  /-- The characters after the place. -/
  after : Text
  deriving DecidableEq, Repr

namespace Cursor

/-- The beginning of a text. -/
def ofText (t : Text) : Cursor := ⟨0, [], t⟩

/-- The place at offset `i` of a text, seen with all that stands before it. -/
def within (t : Text) (i : Nat) : Cursor := ⟨i, (t.take i).reverse, t.drop i⟩

/-- The place at offset `i` of a text, with nothing before it. -/
def startingAt (t : Text) (i : Nat) : Cursor := ⟨i, [], t.drop i⟩

/-- The place after the next character; the end of the text stays where it is. -/
def next (c : Cursor) : Cursor :=
  match c.after with
  | [] => c
  | x :: r => ⟨c.pos + 1, x :: c.before, r⟩

/-- The place `n` characters on, or the end of the text if that is nearer. -/
def skip : Nat → Cursor → Cursor
  | 0, c => c
  | n + 1, c => skip n c.next

@[simp] theorem after_next (c : Cursor) : c.next.after = c.after.tail := by
  unfold next
  split <;> simp_all

@[simp] theorem after_skip (n : Nat) (c : Cursor) : (c.skip n).after = c.after.drop n := by
  induction n generalizing c with
  | zero => rfl
  | succ n ih => rw [skip, ih, after_next, List.drop_tail]

/-- The characters between a place and a later one. -/
def between (c d : Cursor) : Text := (d.before.take (d.pos - c.pos)).reverse

end Cursor

end SnippetGate
