import Mathlib
import SnippetGate.Balance.Scan

/-!
# Well-nested words

A word over pairs of brackets is well nested if each of its openers has a closer of its own pair,
and what lies between them is well nested too. With some openers read before, a word is right if it
closes them, innermost first, and is well nested around these closers. The next character of a word
decides what the rest of it has to close.
-/

namespace SnippetGate

/-- The brackets of a list of pairs, the openers first. -/
def bracketsOf (pairs : List (Char × Char)) : Text := pairs.map Prod.fst ++ pairs.map Prod.snd

/-- The pairs are brackets that script knows nothing else of: no two of them are the same, and none
is a quote, a slash, a backslash or a newline. -/
structure AreBrackets (pairs : List (Char × Char)) : Prop where
  nodup : (bracketsOf pairs).Nodup
  isFree : ∀ x ∈ bracketsOf pairs, x ∉ "\x22\x27\x60/\\\n".toList

instance (pairs : List (Char × Char)) : Decidable (AreBrackets pairs) :=
  decidable_of_iff ((bracketsOf pairs).Nodup ∧
    ∀ x ∈ bracketsOf pairs, x ∉ "\x22\x27\x60/\\\n".toList)
    ⟨fun h => ⟨h.1, h.2⟩, fun h => ⟨h.nodup, h.isFree⟩⟩

/-- A well-nested word over the pairs. -/
inductive WellNested (pairs : List (Char × Char)) : Text → Prop
  | nil : WellNested pairs []
  | pair {x y : Char} {u v : Text} : (x, y) ∈ pairs → WellNested pairs u → WellNested pairs v →
      WellNested pairs (x :: (u ++ y :: v))

/-- A word that closes the openers, of which the first is the innermost, and is well nested apart
from that. -/
inductive Closes (pairs : List (Char × Char)) : Text → Text → Prop
  | nil {v : Text} : WellNested pairs v → Closes pairs [] v
  | cons {x y : Char} {s u v : Text} : (x, y) ∈ pairs → WellNested pairs u → Closes pairs s v →
      Closes pairs (x :: s) (u ++ y :: v)

variable {pairs : List (Char × Char)} {x y z : Char} {s u v w : Text}

namespace AreBrackets

theorem mem_fst (h : (x, y) ∈ pairs) : x ∈ pairs.map Prod.fst := List.mem_map.mpr ⟨_, h, rfl⟩

theorem mem_snd (h : (x, y) ∈ pairs) : y ∈ pairs.map Prod.snd := List.mem_map.mpr ⟨_, h, rfl⟩

theorem mem_bracketsOf : x ∈ bracketsOf pairs ↔ (∃ y, (x, y) ∈ pairs) ∨ ∃ y, (y, x) ∈ pairs := by
  simp [bracketsOf]

/-- No closer is an opener. -/
theorem ne (hp : AreBrackets pairs) {x' y' : Char} (h : (x, y) ∈ pairs) (h' : (x', y') ∈ pairs) :
    x ≠ y' := fun he =>
  (List.nodup_append.mp hp.nodup).2.2 x (mem_fst h) y' (mem_snd h') he

/-- A closer closes one opener. -/
theorem opener_unique (hp : AreBrackets pairs) (h : (x, y) ∈ pairs) (h' : (z, y) ∈ pairs) :
    x = z :=
  congrArg Prod.fst (List.inj_on_of_nodup_map (List.nodup_append.mp hp.nodup).2.1 h h' rfl)

end AreBrackets

/-! ### The first character of a word -/

theorem WellNested.opener_of_cons (h : WellNested pairs (x :: w)) : ∃ y, (x, y) ∈ pairs := by
  cases h with
  | pair hxy => exact ⟨_, hxy⟩

theorem closes_nil_iff : Closes pairs [] w ↔ WellNested pairs w := by
  constructor
  · rintro (h | _)
    exact h
  · exact .nil

theorem Closes.length_le (h : Closes pairs s w) : s.length ≤ w.length := by
  induction h with
  | nil => exact Nat.zero_le _
  | cons =>
    simp only [List.length_cons, List.length_append]
    omega

theorem closes_nil_right_iff : Closes pairs s [] ↔ s = [] := by
  constructor
  · intro h
    exact List.length_eq_zero_iff.mp (Nat.le_zero.mp h.length_le)
  · rintro rfl
    exact .nil .nil

/-- An opener has to be closed by the rest of the word. -/
theorem closes_opener_iff (hp : AreBrackets pairs) (hx : (x, y) ∈ pairs) :
    Closes pairs s (x :: w) ↔ Closes pairs (x :: s) w := by
  constructor
  · generalize hw : x :: w = w'
    rintro (h | @⟨x', y', s, u, v, hxy, hu, hv⟩)
    · subst hw
      cases h with
      | pair hxy hu hv => exact .cons hxy hu (.nil hv)
    · cases hu with
      | nil => exact absurd (List.cons.inj hw).1 (hp.ne hx hxy)
      | @pair a b u u' hab hu hu' =>
        simp only [List.cons_append, List.append_assoc] at hw
        obtain ⟨rfl, rfl⟩ := List.cons.inj hw
        exact .cons hab hu (.cons hxy hu' hv)
  · rintro (_ | @⟨x, y', s, u, v, hxy, hu, hv⟩)
    cases hv with
    | nil hv => exact .nil (.pair hxy hu hv)
    | @cons a b s u' v hab hu' hv =>
      have he : x :: (u ++ y' :: (u' ++ b :: v)) = x :: (u ++ y' :: u') ++ b :: v := by simp
      rw [he]
      exact .cons hab (.pair hxy hu hu') hv

/-- A closer closes the innermost opener, and the rest of the word the others. -/
theorem closes_closer_iff (hp : AreBrackets pairs) (hx : (x, y) ∈ pairs) :
    Closes pairs s (y :: w) ↔ ∃ s', s = x :: s' ∧ Closes pairs s' w := by
  have hno (w : Text) : ¬ WellNested pairs (y :: w) := fun h => by
    obtain ⟨z, hyz⟩ := h.opener_of_cons
    exact hp.ne hyz hx rfl
  constructor
  · generalize hw : y :: w = w'
    rintro (h | @⟨x', y', s, u, v, hxy, hu, hv⟩)
    · exact absurd (hw ▸ h) (hno w)
    · cases u with
      | nil =>
        obtain ⟨rfl, rfl⟩ := List.cons.inj hw
        exact ⟨s, by rw [hp.opener_unique hx hxy], hv⟩
      | cons a u =>
        obtain ⟨rfl, -⟩ := List.cons.inj hw
        exact absurd hu (hno u)
  · rintro ⟨s', rfl, h⟩
    exact .cons (u := []) hx .nil h

end SnippetGate
