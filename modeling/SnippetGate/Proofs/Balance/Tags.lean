import SnippetGate.Proofs.Text.Classes

/-!
# How tags are written

The shape of names and of closing tags, said without reading them, and that the readers find just
these.
-/

namespace SnippetGate

/-- A name of a tag: a letter, and then letters, digits, low lines, dots, colons and hyphens. -/
def IsTagName (name : Text) : Prop :=
  ∃ x r, name = x :: r ∧ x.isAlpha = true ∧ ∀ c ∈ r, isTagNameChar c = true

/-- A text whose first character, if it has one, cannot go on with the name of a tag. -/
def EndsTagName (r : Text) : Prop := ∀ c ∈ r.head?, isTagNameChar c = false

/-- What follows the first two characters of a closing tag, up to its end: a name or nothing,
with any blanks around it. -/
structure IsClosingRest (name piece : Text) : Prop where
  name_ok : name = [] ∨ IsTagName name
  eq : ∃ b₁ b₂ : Text, (∀ c ∈ b₁, isBlank c = true) ∧ (∀ c ∈ b₂, isBlank c = true) ∧
    piece = b₁ ++ name ++ b₂ ++ ['>']

/-- A whole closing tag with the given name, which is empty for a fragment. -/
def IsClosingTag (name piece : Text) : Prop :=
  ∃ rest, IsClosingRest name rest ∧ piece = '<' :: '/' :: rest

/-- A text that begins with a whole closing tag. -/
def BeginsWithClosingTag (t : Text) : Prop :=
  ∃ name piece r, IsClosingTag name piece ∧ t = piece ++ r

theorem IsClosingTag.ne_nil {name piece : Text} (h : IsClosingTag name piece) : piece ≠ [] := by
  obtain ⟨rest, -, rfl⟩ := h
  exact List.cons_ne_nil _ _

theorem IsTagName.isTagNameChar {name : Text} (h : IsTagName name) :
    ∀ c ∈ name, isTagNameChar c = true := by
  obtain ⟨x, r, rfl, hx, hr⟩ := h
  intro c hc
  rcases List.mem_cons.mp hc with rfl | hc
  · exact isTagNameChar_of_isAlpha hx
  · exact hr c hc

/-! ### Characters of tags -/

theorem IsTagName.not_mem_paren {name : Text} (h : IsTagName name) : '(' ∉ name :=
  fun hm => absurd (h.isTagNameChar _ hm) (by decide)

theorem IsClosingTag.not_mem_paren {name piece : Text} (h : IsClosingTag name piece) :
    '(' ∉ piece := by
  obtain ⟨_, ⟨hname, b₁, b₂, hb₁, hb₂, rfl⟩, rfl⟩ := h
  simp only [List.mem_cons, List.mem_append, List.not_mem_nil, or_false, not_or]
  refine ⟨by decide, by decide, ⟨⟨fun hm => absurd (hb₁ _ hm) (by decide), ?_⟩,
    fun hm => absurd (hb₂ _ hm) (by decide)⟩, by decide⟩
  rcases hname with rfl | hname
  · exact List.not_mem_nil
  · exact hname.not_mem_paren

theorem IsClosingTag.getLast? {name piece : Text} (h : IsClosingTag name piece) :
    piece.getLast? = some '>' := by
  obtain ⟨_, ⟨-, b₁, b₂, -, -, rfl⟩, rfl⟩ := h
  simp [List.getLast?_cons, List.getLast?_append]

/-! ### Reading tags -/

/-- The name that a text begins with. -/
theorem tagName?_eq_some_iff {t name : Text} :
    tagName? t = some name ↔ IsTagName name ∧ ∃ r, t = name ++ r ∧ EndsTagName r := by
  constructor
  · intro h
    cases t with
    | nil => simp [tagName?] at h
    | cons x r =>
      rw [tagName?] at h
      split at h
      · next hx =>
        obtain rfl := Option.some.inj h
        refine ⟨⟨x, _, rfl, hx, fun c hc => ?_⟩, r.dropWhile isTagNameChar, ?_, fun c hc => ?_⟩
        · exact List.all_eq_true.mp List.all_takeWhile c hc
        · rw [List.cons_append, List.takeWhile_append_dropWhile]
        · have := List.head?_dropWhile_not isTagNameChar r
          rw [Option.mem_def.mp hc] at this
          simpa using this
      · cases h
  · rintro ⟨⟨x, a, rfl, hx, ha⟩, r, rfl, hr⟩
    have hstop : r.takeWhile isTagNameChar = [] := by
      cases r with
      | nil => rfl
      | cons c r => rw [List.takeWhile_cons, hr c rfl]; rfl
    rw [List.cons_append, tagName?, if_pos hx, List.takeWhile_append_of_pos ha, hstop,
      List.append_nil]

theorem tagName?_eq_none_of_head? {t : Text} (h : ∀ c ∈ t.head?, c.isAlpha = false) :
    tagName? t = none := by
  cases t with
  | nil => rfl
  | cons x r => simp [tagName?, h x rfl]

theorem tagName?_isSome_iff {t : Text} :
    (tagName? t).isSome = true ↔ ∃ x r, t = x :: r ∧ x.isAlpha = true := by
  cases t with
  | nil => simp [tagName?]
  | cons x r => by_cases hx : x.isAlpha = true <;> simp [tagName?, hx]

theorem takeWhile_blanks {b r : Text} (hb : ∀ c ∈ b, isBlank c = true)
    (hr : ∀ c ∈ r.head?, isBlank c = false) :
    (b ++ r).takeWhile isBlank = b ∧ (b ++ r).dropWhile isBlank = r := by
  rw [List.takeWhile_append_of_pos hb, List.dropWhile_append_of_pos hb]
  cases r with
  | nil => simp
  | cons c r => simp [hr c rfl]

/-- The name that may stand at the beginning of a text, and what follows it. -/
theorem getD_tagName?_spec (t : Text) :
    ((tagName? t).getD [] = [] ∨ IsTagName ((tagName? t).getD [])) ∧
      t = (tagName? t).getD [] ++ t.drop ((tagName? t).getD []).length := by
  cases h : tagName? t with
  | none => exact ⟨.inl rfl, rfl⟩
  | some name =>
    obtain ⟨hname, r, rfl, -⟩ := tagName?_eq_some_iff.mp h
    exact ⟨.inr hname, by rw [Option.getD_some, List.drop_left]⟩

/-- The rest of a closing tag that a text begins with. -/
theorem closingTagRest?_eq_some_iff {t name : Text} {n : Nat} :
    closingTagRest? t = some (name, n) ↔
      ∃ piece r, IsClosingRest name piece ∧ t = piece ++ r ∧ n = piece.length := by
  constructor
  · intro h
    obtain ⟨hok, hinner⟩ := getD_tagName?_spec (t.dropWhile isBlank)
    simp only [closingTagRest?] at h
    split at h
    · next hgt =>
      obtain ⟨hname, hn⟩ := Prod.mk.inj (Option.some.inj h)
      rw [hname] at hgt hn hok hinner
      generalize (t.dropWhile isBlank).drop name.length = tail at hgt hn hinner
      obtain ⟨r, hr⟩ := List.head?_eq_some_iff.mp hgt
      have htail : tail = tail.takeWhile isBlank ++ '>' :: r := by
        rw [← hr, List.takeWhile_append_dropWhile]
      refine ⟨t.takeWhile isBlank ++ name ++ tail.takeWhile isBlank ++ ['>'], r, ⟨hok, _, _,
        fun c hc => List.all_eq_true.mp List.all_takeWhile c hc,
        fun c hc => List.all_eq_true.mp List.all_takeWhile c hc, rfl⟩, ?_, ?_⟩
      · calc t = t.takeWhile isBlank ++ t.dropWhile isBlank := by
              rw [List.takeWhile_append_dropWhile]
          _ = t.takeWhile isBlank ++ (name ++ (tail.takeWhile isBlank ++ '>' :: r)) := by
              rw [← htail, ← hinner]
          _ = _ := by simp
      · rw [← hn]
        simp only [List.length_append, List.length_cons, List.length_nil]
    · cases h
  · rintro ⟨piece, r, ⟨hok, b₁, b₂, hb₁, hb₂, rfl⟩, rfl, rfl⟩
    rcases hok with rfl | hname
    · have hb : ∀ c ∈ b₁ ++ b₂, isBlank c = true := fun c hc =>
        (List.mem_append.mp hc).elim (hb₁ c) (hb₂ c)
      obtain ⟨h₁, h₂⟩ := takeWhile_blanks (r := '>' :: r) hb (by simp; decide)
      have he : b₁ ++ [] ++ b₂ ++ ['>'] ++ r = b₁ ++ b₂ ++ '>' :: r := by simp
      rw [closingTagRest?, he]
      simp only [h₁, h₂, tagName?, show ('>' : Char).isAlpha = false by decide]
      simp [show isBlank '>' = false by decide, Nat.add_assoc]
    · obtain ⟨x, a, rfl, hx, ha⟩ := id hname
      have he : b₁ ++ x :: a ++ b₂ ++ ['>'] ++ r = b₁ ++ ((x :: a) ++ (b₂ ++ '>' :: r)) := by simp
      obtain ⟨h₁, h₂⟩ := takeWhile_blanks (r := (x :: a) ++ (b₂ ++ '>' :: r)) hb₁
        (by simpa using not_isBlank_of_isAlpha hx)
      obtain ⟨h₃, h₄⟩ := takeWhile_blanks (r := '>' :: r) hb₂ (by simp; decide)
      have hq : tagName? ((x :: a) ++ (b₂ ++ '>' :: r)) = some (x :: a) := by
        refine tagName?_eq_some_iff.mpr ⟨hname, _, rfl, fun c hc => ?_⟩
        cases b₂ with
        | nil => obtain rfl : '>' = c := by simpa using hc
                 decide
        | cons d b₂ =>
          obtain rfl : d = c := by simpa using hc
          exact not_isTagNameChar_of_isBlank (hb₂ d List.mem_cons_self)
      rw [closingTagRest?, he]
      simp only [h₁, h₂, hq, Option.getD_some, List.drop_left, h₃, h₄]
      simp only [List.head?_cons, if_true, List.length_append, List.length_cons, List.length_nil]

theorem closingTagRest?_isSome_iff {r : Text} :
    (closingTagRest? r).isSome = true ↔ BeginsWithClosingTag ('<' :: '/' :: r) := by
  constructor
  · intro h
    obtain ⟨⟨name, n⟩, hn⟩ := Option.isSome_iff_exists.mp h
    obtain ⟨piece, q, hp, rfl, -⟩ := closingTagRest?_eq_some_iff.mp hn
    exact ⟨name, _, q, ⟨piece, hp, rfl⟩, rfl⟩
  · rintro ⟨name, _, q, ⟨piece, hp, rfl⟩, heq⟩
    obtain rfl : r = piece ++ q := by simpa using heq
    rw [closingTagRest?_eq_some_iff.mpr ⟨piece, q, hp, rfl, rfl⟩]
    rfl

end SnippetGate
