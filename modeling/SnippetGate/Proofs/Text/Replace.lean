import Mathlib
import SnippetGate.Proofs.Text.Basic

/-!
# Fixed texts replaced

When a text is replaced wherever it occurs, and both it and the new text begin with a character that
neither holds a second time, no occurrence is left.
-/

namespace SnippetGate.Text

variable {x y r s t old new : Text} {z : Char}

/-- The texts differ at a place that both have. -/
def Clash (x y : Text) : Prop := ¬ x <+: y ∧ ¬ y <+: x

instance (x y : Text) : Decidable (Clash x y) := instDecidableAnd

theorem Clash.append_ne (h : Clash x y) (r s : Text) : x ++ r ≠ y ++ s := fun he =>
  (List.prefix_or_prefix_of_prefix ⟨r, rfl⟩ ⟨s, he.symm⟩).elim h.1 h.2

theorem replaceFrom_eq (old new : Text) (n : Nat) (t : Text) :
    replaceFrom old new n t = replaceFrom old new 0 (t.drop n) := by
  induction n generalizing t with
  | zero => rfl
  | succ n ih =>
    cases t with
    | nil => rfl
    | cons x t => rw [replaceFrom, ih, List.drop_succ_cons]

/-- What does not hold the first character of the new text and stands at the beginning after the
replacement stood there before. -/
theorem prefix_of_prefix_replaceFrom (hnew : new.head? = some z) (hx : z ∉ x)
    (h : x <+: replaceFrom old new 0 t) : x <+: t := by
  induction t generalizing x with
  | nil => simpa [replaceFrom] using h
  | cons y t ih =>
    cases x with
    | nil => exact List.nil_prefix
    | cons c x =>
      rw [List.mem_cons, not_or] at hx
      obtain ⟨hc, hx⟩ := hx
      rw [replaceFrom] at h
      split at h
      · obtain ⟨new, rfl⟩ := List.head?_eq_some_iff.mp hnew
        rw [List.cons_append, List.cons_prefix_cons] at h
        exact absurd h.1.symm hc
      · rw [List.cons_prefix_cons] at h ⊢
        exact ⟨h.1, ih hx h.2⟩

/-- What begins with a character occurs behind all texts without it. -/
theorem infix_of_infix_append (hx : z ∉ x) (h : (z :: y) <:+: x ++ r) : (z :: y) <:+: r := by
  obtain ⟨a, b, h⟩ := h
  obtain ⟨k, -, rfl⟩ := exists_of_append_cons_eq (a := a) (b := y ++ b) (by simpa using h) hx
  exact ⟨k, b, by simp⟩

theorem not_infix_replaceFrom (hold : z ∉ old) (hnew : z ∉ new)
    (hclash : Clash (z :: old) (z :: new)) (n : Nat) (t : Text) (hn : t.length ≤ n) :
    ¬ (z :: old) <:+: replaceFrom (z :: old) (z :: new) 0 t := by
  induction n generalizing t with
  | zero =>
    rw [List.length_eq_zero_iff.mp (Nat.le_zero.mp hn)]
    exact fun h => List.cons_ne_nil _ _ (List.infix_nil.mp h)
  | succ n ih =>
    cases t with
    | nil => exact fun h => List.cons_ne_nil _ _ (List.infix_nil.mp h)
    | cons y t =>
      rw [replaceFrom]
      split
      · -- the new text stands here, and begins unlike the old one
        intro h
        rw [replaceFrom_eq, List.length_cons, Nat.add_sub_cancel, List.cons_append,
          List.infix_cons_iff] at h
        rcases h with ⟨r, h⟩ | h
        · exact hclash.append_ne r _ h
        · refine ih (t.drop old.length) ?_ (infix_of_infix_append hnew h)
          exact (List.drop_sublist ..).length_le.trans (Nat.le_of_succ_le_succ hn)
      · next hp =>
        intro h
        rcases List.infix_cons_iff.mp h with h | h
        · -- the old text would have stood here before
          obtain ⟨rfl, htail⟩ := List.cons_prefix_cons.mp h
          have hhead : (z :: new).head? = some z := rfl
          have hbefore := prefix_of_prefix_replaceFrom hhead hold htail
          exact hp (List.isPrefixOf_iff_prefix.mpr (List.cons_prefix_cons.mpr ⟨rfl, hbefore⟩))
        · exact ih t (Nat.le_of_succ_le_succ hn) h

/-- No occurrence is left. -/
theorem holds_replace (hold : z ∉ old) (hnew : z ∉ new) (hclash : Clash (z :: old) (z :: new))
    (t : Text) : (t.replace (z :: old) (z :: new)).holds (z :: old) = false := by
  rw [← Bool.not_eq_true, holds_iff_infix]
  exact not_infix_replaceFrom hold hnew hclash t.length t le_rfl

/-- A text without occurrences stays as it is. -/
theorem replace_eq_self (h : t.holds old = false) : t.replace old new = t := by
  rw [← Bool.not_eq_true, holds_iff_infix] at h
  rw [replace]
  induction t with
  | nil => rfl
  | cons x t ih =>
    rw [List.infix_cons_iff, not_or, ← List.isPrefixOf_iff_prefix] at h
    rw [replaceFrom, if_neg h.1, ih h.2]

end SnippetGate.Text
