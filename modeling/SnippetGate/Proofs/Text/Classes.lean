import Mathlib
import SnippetGate.Balance.Markup
import SnippetGate.Text.Blank
import SnippetGate.Text.Lines
import SnippetGate.Text.Word

/-!
# Classes of characters

No blank is a word character, so blanks, names and the signs around them cannot run into each
other.
-/

namespace SnippetGate

theorem Ranges.exists_of_hold {rs : Ranges} {n : Nat} (h : rs.hold n = true) :
    ∃ r ∈ rs, r.1 ≤ n ∧ n ≤ r.2 := by
  induction rs with
  | nil => simp [hold] at h
  | cons r rs ih =>
    simp only [hold, Bool.and_eq_true, Bool.or_eq_true, decide_eq_true_eq] at h
    rcases h with ⟨h₁, h₂ | h₂⟩
    · exact ⟨r, List.mem_cons_self, h₁, h₂⟩
    · obtain ⟨q, hq, hn⟩ := ih h₂
      exact ⟨q, List.mem_cons_of_mem r hq, hn⟩

/-- What holds at the members of all ranges holds at all code points of the set. -/
theorem Ranges.forall_of_hold {rs : Ranges} {p : Nat → Bool}
    (h : (rs.all fun r => (List.range' r.1 (r.2 + 1 - r.1)).all p) = true) {n : Nat}
    (hn : rs.hold n = true) : p n = true := by
  obtain ⟨r, hr, h₁, h₂⟩ := exists_of_hold hn
  exact List.all_eq_true.mp (List.all_eq_true.mp h r hr) n
    (List.mem_range'_1.mpr ⟨h₁, by omega⟩)

theorem not_isAlphanumeric_of_isBlank {c : Char} (h : isBlank c = true) :
    isAlphanumeric c = false := by
  have ascii : (Char.ofNat c.toNat).isAlphanum = false ∨ 0x80 ≤ c.toNat := by
    have := Ranges.forall_of_hold (p := fun n => !(Char.ofNat n).isAlphanum || 0x80 ≤ n)
      (by decide +kernel) h
    simpa using this
  have far : alphanumericRanges.hold c.toNat = false := by
    have := Ranges.forall_of_hold (p := fun n => !alphanumericRanges.hold n) (by decide +kernel) h
    simpa using this
  unfold isAlphanumeric
  split
  · next hlt =>
    rcases ascii with h | h
    · simpa using h
    · omega
  · exact far

theorem beq_eq_false_of_isBlank {c x : Char} (h : isBlank c = true) (hx : isBlank x = false) :
    (c == x) = false := by
  rw [beq_eq_false_iff_ne]
  rintro rfl
  simp [h] at hx

theorem not_isWord_of_isBlank {c : Char} (h : isBlank c = true) : isWord c = false := by
  rw [isWord, not_isAlphanumeric_of_isBlank h, beq_eq_false_of_isBlank h (by decide)]
  rfl

/-- No blank can stand in the name of a tag. -/
theorem not_isTagNameChar_of_isBlank {c : Char} (h : isBlank c = true) :
    isTagNameChar c = false := by
  simp [isTagNameChar, not_isWord_of_isBlank h, beq_eq_false_of_isBlank h (x := '.') (by decide),
    beq_eq_false_of_isBlank h (x := ':') (by decide),
    beq_eq_false_of_isBlank h (x := '-') (by decide)]

/-- No blank can stand in a name of the script. -/
theorem not_isNameChar_of_isBlank {c : Char} (h : isBlank c = true) : isNameChar c = false := by
  simp [isNameChar, not_isWord_of_isBlank h, beq_eq_false_of_isBlank h (x := '$') (by decide)]

theorem isAlphanumeric_of_isAlpha {c : Char} (h : c.isAlpha = true) : isAlphanumeric c = true := by
  have hlt : c.toNat < 0x80 := by
    simp only [Char.isAlpha, Char.isUpper, Char.isLower, Bool.or_eq_true, Bool.and_eq_true,
      decide_eq_true_eq, ge_iff_le, UInt32.le_iff_toNat_le] at h
    rcases h with ⟨-, h⟩ | ⟨-, h⟩
    · exact Nat.lt_of_le_of_lt h (by decide)
    · exact Nat.lt_of_le_of_lt h (by decide)
  rw [isAlphanumeric, if_pos hlt, Char.isAlphanum, h, Bool.true_or]

theorem isAlphanumeric_of_isAlphanum {c : Char} (h : c.isAlphanum = true) :
    isAlphanumeric c = true := by
  rcases Bool.or_eq_true_iff.mp h with halpha | hdigit
  · exact isAlphanumeric_of_isAlpha halpha
  · simp only [Char.isDigit, Bool.and_eq_true, decide_eq_true_eq, ge_iff_le,
      UInt32.le_iff_toNat_le] at hdigit
    have hlt : c.toNat < 0x80 := Nat.lt_of_le_of_lt hdigit.2 (by decide)
    rw [isAlphanumeric, if_pos hlt, h]

/-- A letter can stand in the name of a tag. -/
theorem isTagNameChar_of_isAlpha {c : Char} (h : c.isAlpha = true) : isTagNameChar c = true := by
  simp [isTagNameChar, isWord, isAlphanumeric_of_isAlpha h]

theorem not_isBlank_of_isTagNameChar {c : Char} (h : isTagNameChar c = true) :
    isBlank c = false := by
  cases hb : isBlank c with
  | false => rfl
  | true => simp [not_isTagNameChar_of_isBlank hb] at h

theorem not_isBlank_of_isAlpha {c : Char} (h : c.isAlpha = true) : isBlank c = false :=
  not_isBlank_of_isTagNameChar (isTagNameChar_of_isAlpha h)

theorem not_isBlank_of_isNameChar {c : Char} (h : isNameChar c = true) : isBlank c = false := by
  cases hb : isBlank c with
  | false => rfl
  | true => simp [not_isNameChar_of_isBlank hb] at h

theorem isBlank_of_isIndent {c : Char} (h : Text.isIndent c = true) : isBlank c = true := by
  simp only [Text.isIndent, Bool.or_eq_true, beq_iff_eq] at h
  rcases h with rfl | rfl <;> rfl

end SnippetGate
