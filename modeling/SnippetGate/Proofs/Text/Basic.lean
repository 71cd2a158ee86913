import Mathlib
import SnippetGate.Text.Lines

/-!
# Parts of a text

Slices, the first character of another class, fixed texts, what trimming leaves, and line breaks
written in one way.
-/

namespace SnippetGate.Text

variable {t : Text} {i j : Nat}

/-- A text in three parts. -/
theorem take_slice_drop (t : Text) (h : i ≤ j) : t.take i ++ (t.slice i j ++ t.drop j) = t := by
  have htake : t.take i = (t.take j).take i := by rw [List.take_take, Nat.min_eq_left h]
  rw [htake, slice, ← List.append_assoc, List.take_append_drop, List.take_append_drop]

/-- A text is divided in one way only by the first character that is not of a class. -/
theorem eq_of_first_of_other {q : Char → Bool} {a b r s : Text} {y z : Char}
    (ha : ∀ x ∈ a, q x = true) (hb : ∀ x ∈ b, q x = true) (hy : q y = false) (hz : q z = false)
    (h : a ++ y :: r = b ++ z :: s) : a = b ∧ y = z ∧ r = s := by
  have htake := congrArg (List.takeWhile q) h
  rw [List.takeWhile_append_of_pos ha, List.takeWhile_append_of_pos hb,
    List.takeWhile_cons_of_neg (by simp [hy]), List.takeWhile_cons_of_neg (by simp [hz]),
    List.append_nil, List.append_nil] at htake
  obtain rfl := htake
  obtain ⟨rfl, rfl⟩ := List.cons.inj (List.append_cancel_left h)
  exact ⟨rfl, rfl, rfl⟩

theorem bne_of_notMem {a : Text} {z : Char} (h : z ∉ a) : ∀ x ∈ a, (x != z) = true := fun x hx => by
  rw [bne_iff_ne]
  rintro rfl
  exact h hx

/-- A text is divided in one way only by the first place of a character. -/
theorem eq_of_first_of_notMem {a b r s : Text} {z : Char} (ha : z ∉ a) (hb : z ∉ b)
    (h : a ++ z :: r = b ++ z :: s) : a = b ∧ r = s := by
  obtain ⟨hab, -, hrs⟩ := eq_of_first_of_other (bne_of_notMem ha) (bne_of_notMem hb)
    (bne_self_eq_false z) (bne_self_eq_false z) h
  exact ⟨hab, hrs⟩

/-- A text is divided in one way only by the last character that is not of a class. -/
theorem eq_of_last_of_other {q : Char → Bool} {a b r s : Text} {y z : Char}
    (ha : ∀ x ∈ a, q x = true) (hb : ∀ x ∈ b, q x = true) (hy : q y = false) (hz : q z = false)
    (h : r ++ y :: a = s ++ z :: b) : r = s ∧ y = z ∧ a = b := by
  have hrev : a.reverse ++ y :: r.reverse = b.reverse ++ z :: s.reverse := by
    simpa using congrArg List.reverse h
  obtain ⟨hab, hyz, hrs⟩ := eq_of_first_of_other (fun x hx => ha x (List.mem_reverse.mp hx))
    (fun x hx => hb x (List.mem_reverse.mp hx)) hy hz hrev
  exact ⟨List.reverse_injective hrs, hyz, List.reverse_injective hab⟩

/-- A place of a text stands before a character or behind it. -/
theorem cases_of_append_cons_eq {a b u v : Text} {z : Char} (h : a ++ z :: b = u ++ v) :
    (∃ d, a = u ++ d ∧ v = d ++ z :: b) ∨ ∃ d, u = a ++ z :: d ∧ b = d ++ v := by
  rcases List.append_eq_append_iff.mp h with ⟨d, rfl, hd⟩ | ⟨d, rfl, rfl⟩
  · cases d with
    | nil => exact .inl ⟨[], by simp, hd.symm⟩
    | cons x d =>
      obtain ⟨rfl, rfl⟩ := List.cons.inj hd
      exact .inr ⟨d, rfl, rfl⟩
  · exact .inl ⟨d, rfl, rfl⟩

/-- What a text begins with, if it does not hold a character, stands before that. -/
theorem exists_of_append_cons_eq {a b w r : Text} {z : Char} (h : a ++ z :: b = w ++ r)
    (hz : z ∉ w) : ∃ k, a = w ++ k ∧ r = k ++ z :: b := by
  rcases cases_of_append_cons_eq h with hk | ⟨d, rfl, -⟩
  · exact hk
  · exact absurd (List.mem_append_right a List.mem_cons_self) hz

theorem getLast?_append_congr {l u : Text} (s : Text) (h : l.getLast? = u.getLast?) :
    (l ++ s).getLast? = (u ++ s).getLast? := by
  rw [List.getLast?_append, List.getLast?_append, h]

theorem holds_iff_infix {part : Text} : t.holds part = true ↔ part <:+: t := by
  induction t with
  | nil => cases part <;> simp [holds, find?]
  | cons x t ih =>
    rw [holds, find?, List.infix_cons_iff, ← List.isPrefixOf_iff_prefix, ← ih, holds]
    cases part.isPrefixOf (x :: t) <;> simp

/-! ### Trimmed texts -/

/-- There are no blanks at either end of the text. -/
structure IsTrimmed (t : Text) : Prop where
  head : ∀ x ∈ t.head?, isBlank x = false
  last : ∀ x ∈ t.getLast?, isBlank x = false

theorem trimStart_eq_self (h : ∀ x ∈ t.head?, isBlank x = false) : trimStart t = t := by
  cases t with
  | nil => rfl
  | cons x t => rw [trimStart, List.dropWhile_cons_of_neg (by simp [h x rfl])]

theorem trimEnd_eq_self (h : ∀ x ∈ t.getLast?, isBlank x = false) : trimEnd t = t := by
  have hrev : trimStart t.reverse = t.reverse :=
    trimStart_eq_self (by rwa [List.head?_reverse])
  rw [trimEnd, ← trimStart, hrev, List.reverse_reverse]

theorem IsTrimmed.trim_eq (h : IsTrimmed t) : trim t = t := by
  rw [trim, trimStart_eq_self h.head, trimEnd_eq_self h.last]

theorem isTrimmed_trim (t : Text) : IsTrimmed (trim t) where
  head x hx := by
    -- What is dropped at the end does not bring a blank to the beginning.
    have hpre : trim t <+: trimStart t := by
      rw [trim, trimEnd, ← List.reverse_suffix, List.reverse_reverse]
      exact List.dropWhile_suffix _
    obtain ⟨r, hr⟩ := hpre
    have hx' : x ∈ (trimStart t).head? := by
      rw [← hr, List.head?_append, Option.mem_def.mp hx]
      exact rfl
    have := List.head?_dropWhile_not isBlank t
    rw [← trimStart, Option.mem_def.mp hx'] at this
    simpa using this
  last x hx := by
    rw [trim, trimEnd, List.getLast?_reverse] at hx
    have := List.head?_dropWhile_not isBlank (trimStart t).reverse
    rw [Option.mem_def.mp hx] at this
    simpa using this

/-- A text is its trimmed form with blanks around it. -/
theorem exists_trim (t : Text) : ∃ l r, t = l ++ (trim t ++ r) ∧
    (∀ x ∈ l, isBlank x = true) ∧ ∀ x ∈ r, isBlank x = true := by
  refine ⟨t.takeWhile isBlank, ((trimStart t).reverse.takeWhile isBlank).reverse, ?_, ?_, ?_⟩
  · rw [trim, trimEnd, ← List.reverse_append, List.takeWhile_append_dropWhile, List.reverse_reverse,
      trimStart, List.takeWhile_append_dropWhile]
  · exact List.all_eq_true.mp List.all_takeWhile
  · intro x hx
    exact List.all_eq_true.mp List.all_takeWhile x (List.mem_reverse.mp hx)

theorem allBlank_trim (t : Text) : allBlank (trim t) = allBlank t := by
  obtain ⟨l, r, ht, hl, hr⟩ := exists_trim t
  have hall {b : Text} (hb : ∀ x ∈ b, isBlank x = true) : b.all isBlank = true :=
    List.all_eq_true.mpr hb
  conv_rhs => rw [ht]
  rw [allBlank, allBlank, List.all_append, List.all_append, hall hl, hall hr, Bool.true_and,
    Bool.and_true]

theorem universalNewlines_cons {x : Char} (h : ∀ q, x = '\r' → t ≠ '\n' :: q) :
    universalNewlines (x :: t) = (if x = '\r' then '\n' else x) :: universalNewlines t := by
  rw [universalNewlines]
  exact h

end SnippetGate.Text
