import Mathlib
import SnippetGate.Text.Cursor

/-!
# Places of a text

How far a cursor goes, and what stands on both of its sides then.
-/

namespace SnippetGate.Cursor

@[simp] theorem skip_zero (c : Cursor) : c.skip 0 = c := rfl

theorem skip_succ (n : Nat) (c : Cursor) : c.skip (n + 1) = c.next.skip n := rfl

theorem skip_skip (m n : Nat) (c : Cursor) : (c.skip m).skip n = c.skip (m + n) := by
  induction m generalizing c with
  | zero => rw [skip_zero, Nat.zero_add]
  | succ m ih => rw [skip_succ, ih, Nat.add_right_comm, skip_succ]

theorem next_of_after {c : Cursor} {x : Char} {r : Text} (h : c.after = x :: r) :
    c.next = ⟨c.pos + 1, x :: c.before, r⟩ := by
  unfold next
  simp [h]

/-- Going over a text that follows. -/
theorem skip_of_after {c : Cursor} {a r : Text} (h : c.after = a ++ r) :
    c.skip a.length = ⟨c.pos + a.length, a.reverse ++ c.before, r⟩ := by
  induction a generalizing c with
  | nil => obtain ⟨p, b, t⟩ := c; simp_all
  | cons x a ih =>
    have hn := next_of_after (c := c) (x := x) (r := a ++ r) h
    rw [List.length_cons, skip_succ, ih (by rw [hn]), hn]
    simp [Nat.add_assoc, Nat.add_comm 1]

theorem skip_one_of_after {c : Cursor} {x : Char} {r : Text} (h : c.after = x :: r) :
    c.skip 1 = ⟨c.pos + 1, x :: c.before, r⟩ := by
  rw [skip_succ, skip_zero, next_of_after h]

theorem pos_next_le (c : Cursor) : c.pos ≤ c.next.pos := by
  unfold next
  split <;> simp

theorem pos_le_pos_skip (n : Nat) (c : Cursor) : c.pos ≤ (c.skip n).pos := by
  induction n generalizing c with
  | zero => exact Nat.le_refl _
  | succ n ih => exact Nat.le_trans (pos_next_le c) (ih c.next)

theorem before_skip (n : Nat) (c : Cursor) :
    (c.skip n).before = (c.after.take n).reverse ++ c.before := by
  induction n generalizing c with
  | zero => simp
  | succ n ih =>
    rw [skip_succ, ih, after_next]
    cases ha : c.after with
    | nil => simp [next, ha]
    | cons x r => simp [next, ha]

/-! ### Where the text ends -/

/-- The offset of the end of the text. -/
def stop (c : Cursor) : Nat := c.pos + c.after.length

@[simp] theorem stop_next (c : Cursor) : c.next.stop = c.stop := by
  unfold next
  split
  · rfl
  · next h => simp [stop, h]; omega

@[simp] theorem stop_skip (n : Nat) (c : Cursor) : (c.skip n).stop = c.stop := by
  induction n generalizing c with
  | zero => rfl
  | succ n ih => rw [skip_succ, ih, stop_next]

theorem pos_skip (n : Nat) (c : Cursor) : (c.skip n).pos = c.pos + min n c.after.length := by
  have h := stop_skip n c
  rw [stop, stop, after_skip, List.length_drop] at h
  omega

/-- Going on keeps what follows the rest of the text from the offset on. -/
theorem after_skip_eq_drop {t : Text} {c : Cursor} (h : c.after = t.drop c.pos) (n : Nat) :
    (c.skip n).after = t.drop (c.skip n).pos := by
  rw [after_skip, pos_skip, h, List.drop_drop]
  rcases Nat.le_total n (t.drop c.pos).length with hle | hle
  · rw [Nat.min_eq_left hle]
  · rw [Nat.min_eq_right hle, List.drop_eq_nil_of_le (by rw [List.length_drop] at hle; omega),
      List.drop_eq_nil_of_le (by rw [List.length_drop]; omega)]

theorem stop_ofText (t : Text) : (ofText t).stop = t.length := Nat.zero_add _

/-! ### Going over a text -/

/-- The text between a place and a later one. -/
structure Over (c : Cursor) (a : Text) (d : Cursor) : Prop where
  after : c.after = a ++ d.after
  before : d.before = a.reverse ++ c.before
  pos : d.pos = c.pos + a.length

theorem over_skip {c : Cursor} {a r : Text} (h : c.after = a ++ r) :
    c.Over a (c.skip a.length) := by
  rw [skip_of_after h]
  exact ⟨h, rfl, rfl⟩

theorem over_skip_one {c : Cursor} {x : Char} {r : Text} (h : c.after = x :: r) :
    c.Over [x] (c.skip 1) := over_skip (a := [x]) h

variable {c d e : Cursor} {a b : Text}

theorem Over.skip (h : c.Over a d) : c.skip a.length = d := by
  rw [skip_of_after h.after, ← h.before, ← h.pos]

theorem over_nil (c : Cursor) : c.Over [] c := ⟨rfl, rfl, rfl⟩

theorem Over.trans (h : c.Over a d) (h' : d.Over b e) : c.Over (a ++ b) e :=
  ⟨by rw [h.after, h'.after, List.append_assoc],
    by rw [h'.before, h.before, List.reverse_append, List.append_assoc],
    by rw [h'.pos, h.pos, List.length_append, Nat.add_assoc]⟩

theorem Over.split (h : c.Over (a ++ b) e) : ∃ d, c.Over a d ∧ d.Over b e := by
  have hc : c.after = a ++ (b ++ e.after) := by rw [h.after, List.append_assoc]
  refine ⟨c.skip a.length, over_skip hc, ?_, ?_, ?_⟩
  · rw [after_skip, hc, List.drop_left]
  · rw [skip_of_after hc, h.before, List.reverse_append, List.append_assoc]
  · rw [skip_of_after hc, h.pos, List.length_append, Nat.add_assoc]

theorem Over.stop (h : c.Over a d) : d.stop = c.stop := by rw [← h.skip, stop_skip]

/-- What lies between two places is the text that was gone over. -/
theorem Over.between (h : c.Over a d) : c.between d = a := by
  have hlen : d.pos - c.pos = a.reverse.length := by rw [h.pos, List.length_reverse]; omega
  rw [Cursor.between, h.before, hlen, List.take_left, List.reverse_reverse]

theorem Over.after_cons {x : Char} (h : c.Over (x :: a) d) : c.after = x :: (a ++ d.after) :=
  h.after

end SnippetGate.Cursor
