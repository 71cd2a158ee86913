import SnippetGate.Proofs.Pattern.Leads
import SnippetGate.Proofs.Text.Classes

/-!
# Pieces of a pattern as texts

What a pattern asks of a text and of the texts on both sides of it, said without places, offsets
and groups. A text has a piece of a pattern just if some part of it fits.

Little of this depends on blanks far away: where a pattern looks at the sides of a piece only for
words, a text has the same pieces with more blanks around it.
-/

namespace SnippetGate

namespace Pattern

/-- The text `w`, which stands between `u` and `v`, is a piece of the pattern. Of repeated
patterns, of references to a group and of what may not follow nothing is said here. -/
def Fits : Pattern → Text → Text → Text → Prop
  | .empty, _, w, _ => w = []
  | .one p, _, w, _ => ∃ x, w = [x] ∧ p x = true
  | .run p _, _, w, _ => ∀ x ∈ w, p x = true
  | .seq a b, u, w, v => ∃ w₁ w₂, w = w₁ ++ w₂ ∧ a.Fits u w₁ (w₂ ++ v) ∧ b.Fits (u ++ w₁) w₂ v
  | .alt a b, u, w, v => a.Fits u w v ∨ b.Fits u w v
  | .group _ a, u, w, v => a.Fits u w v
  | .ahead a, u, w, v => w = [] ∧ ∃ w' v', v = w' ++ v' ∧ a.Fits u w' v'
  | .notAfter p, u, w, _ => w = [] ∧ ∀ x ∈ u.getLast?, p x = false
  | .lineStart, u, w, _ => w = [] ∧ ∀ x ∈ u.getLast?, x = '\n'
  | .lineEnd, _, w, v => w = [] ∧ ∀ x ∈ v.head?, x = '\n'
  | .textEnd, _, w, v => w = [] ∧ (v = [] ∨ v = ['\n'])
  | .wordEdge, u, w, v => w = [] ∧ u.getLast?.any isWord ≠ v.head?.any isWord
  | .star _ _, _, _, _ => False
  | .again _, _, _, _ => False
  | .notAhead _, _, _, _ => False

/-- Whether `Fits` says what the pieces of a pattern are. -/
def isExplicit : Pattern → Bool
  | .seq a b => a.isExplicit && b.isExplicit
  | .alt a b => a.isExplicit && b.isExplicit
  | .group _ a => a.isExplicit
  | .ahead a => a.isExplicit
  | .star _ _ => false
  | .again _ => false
  | .notAhead _ => false
  | _ => true

variable {p a b : Pattern} {s t : Progress} {u v w l r c : Text} {n : Nat}
  {κ : List (Nat × Capture)}

/-! ### Places and texts -/

theorem any_eq_false_iff {α : Type} {q : α → Bool} {o : Option α} :
    o.any q = false ↔ ∀ x ∈ o, q x = false := by
  cases o <;> simp

theorem atLineStart_iff (c : Cursor) :
    c.atLineStart = true ↔ ∀ x ∈ c.before.reverse.getLast?, x = '\n' := by
  obtain ⟨n, b, t⟩ := c
  cases b <;> simp [Cursor.atLineStart, Cursor.isAfter]

theorem atLineEnd_iff (c : Cursor) : c.atLineEnd = true ↔ ∀ x ∈ c.after.head?, x = '\n' := by
  obtain ⟨n, b, t⟩ := c
  cases t <;> simp [Cursor.atLineEnd, Cursor.isBefore]

theorem atTextEnd_iff (c : Cursor) :
    c.atTextEnd = true ↔ c.after = [] ∨ c.after = ['\n'] := by
  simp [Cursor.atTextEnd]

theorem mem_ite_singleton {q : Prop} [Decidable q] : t ∈ (if q then [s] else []) ↔ t = s ∧ q := by
  split <;> simp_all

/-- What takes no character, if a condition holds of the place. -/
theorem exists_over_nil {q : Prop} (h : t = s ∧ q) : ∃ w, s.cursor.Over w t.cursor ∧ w = [] ∧ q :=
  ⟨[], h.1 ▸ Cursor.over_nil _, rfl, h.2⟩

/-- Every end lies behind a text that fits. -/
theorem exists_fits_of_mem_ends (hp : p.isExplicit = true) (h : t ∈ p.ends s) :
    ∃ w, s.cursor.Over w t.cursor ∧ p.Fits s.cursor.before.reverse w t.cursor.after := by
  induction p generalizing s t with
  | empty => exact ⟨[], mem_ends_empty h ▸ Cursor.over_nil _, rfl⟩
  | one q =>
    obtain ⟨x, hx, ho, -⟩ := mem_ends_one h
    exact ⟨[x], ho, x, rfl, hx⟩
  | run q greedy =>
    obtain ⟨w, hw, ho, -⟩ := mem_ends_run h
    exact ⟨w, ho, hw⟩
  | seq a b iha ihb =>
    rw [isExplicit, Bool.and_eq_true] at hp
    obtain ⟨m, hm, ht⟩ := mem_ends_seq.mp h
    obtain ⟨w₁, h₁, hf₁⟩ := iha hp.1 hm
    obtain ⟨w₂, h₂, hf₂⟩ := ihb hp.2 ht
    refine ⟨w₁ ++ w₂, h₁.trans h₂, w₁, w₂, rfl, h₂.after ▸ hf₁, ?_⟩
    rwa [h₁.before, List.reverse_append, List.reverse_reverse] at hf₂
  | alt a b iha ihb =>
    rw [isExplicit, Bool.and_eq_true] at hp
    rcases mem_ends_alt.mp h with h | h
    · obtain ⟨w, ho, hf⟩ := iha hp.1 h
      exact ⟨w, ho, .inl hf⟩
    · obtain ⟨w, ho, hf⟩ := ihb hp.2 h
      exact ⟨w, ho, .inr hf⟩
  | group k a ih =>
    obtain ⟨m, hm, rfl⟩ := mem_ends_group h
    obtain ⟨w, ho, hf⟩ := ih hp hm
    exact ⟨w, ho, hf⟩
  | ahead a ih =>
    rw [ends] at h
    split at h
    · cases h
    · next hne =>
      obtain rfl := List.mem_singleton.mp h
      obtain ⟨m, hm⟩ := List.exists_mem_of_ne_nil _ (by simpa using hne)
      obtain ⟨w, ho, hf⟩ := ih hp hm
      exact ⟨[], Cursor.over_nil _, rfl, w, m.cursor.after, ho.after, hf⟩
  | notAfter q =>
    obtain ⟨rfl, hq⟩ := mem_ends_notAfter h
    refine ⟨[], Cursor.over_nil _, rfl, any_eq_false_iff.mp ?_⟩
    rwa [← Cursor.isAfter_eq_any]
  | lineStart =>
    rw [ends, mem_ite_singleton] at h
    exact exists_over_nil ⟨h.1, (atLineStart_iff _).mp h.2⟩
  | lineEnd =>
    rw [ends, mem_ite_singleton] at h
    obtain ⟨rfl, hq⟩ := h
    exact exists_over_nil ⟨rfl, (atLineEnd_iff _).mp hq⟩
  | textEnd =>
    obtain ⟨rfl, hq⟩ := mem_ends_textEnd h
    exact exists_over_nil ⟨rfl, (atTextEnd_iff _).mp hq⟩
  | wordEdge =>
    obtain ⟨rfl, hq⟩ := mem_ends_wordEdge h
    refine exists_over_nil ⟨rfl, ?_⟩
    rwa [Cursor.atWordEdge, Cursor.isAfter_eq_any, Cursor.isBefore_eq_any, bne_iff_ne] at hq
  | star | again | notAhead => cases hp

theorem exists_mem_of_condition {q : Prop} [Decidable q] (hq : q) (n : Nat)
    (κ : List (Nat × Capture)) :
    ∃ t ∈ (if q then [(⟨⟨n, u.reverse, v⟩, κ⟩ : Progress)] else []),
      t.cursor = ⟨n + 0, (u ++ []).reverse, v⟩ := by
  rw [if_pos hq]
  exact ⟨_, List.mem_singleton_self _, by simp⟩

/-- Behind every text that fits lies an end. -/
theorem leads_of_fits (h : p.Fits u w v) (n : Nat) (κ : List (Nat × Capture)) :
    p.Leads ⟨⟨n, u.reverse, w ++ v⟩, κ⟩
      fun t => t.cursor = ⟨n + w.length, (u ++ w).reverse, v⟩ := by
  induction p generalizing u w v n κ with
  | empty =>
    obtain rfl : w = [] := h
    exact leads_empty.mpr (by simp)
  | one q =>
    obtain ⟨x, rfl, hx⟩ := h
    exact leads_one.mpr ⟨x, v, rfl, hx, by simp⟩
  | run q greedy => exact leads_run.mpr ⟨w, v, rfl, h, by simp⟩
  | seq a b iha ihb =>
    obtain ⟨w₁, w₂, rfl, h₁, h₂⟩ := h
    rw [List.append_assoc, leads_seq]
    obtain ⟨⟨c, κ'⟩, ht, rfl⟩ := iha h₁ n κ
    obtain ⟨t', ht', hc⟩ := ihb h₂ (n + w₁.length) κ'
    exact ⟨_, ht, t', ht', by simpa [Nat.add_assoc] using hc⟩
  | alt a b iha ihb => exact leads_alt.mpr (h.imp (iha · n κ) (ihb · n κ))
  | group k a ih =>
    obtain ⟨t, ht, hc⟩ := ih h n κ
    exact ⟨t.remember k _, by rw [ends]; exact List.mem_map_of_mem ht, hc⟩
  | ahead a ih =>
    obtain ⟨rfl, w', v', rfl, hw⟩ := h
    obtain ⟨t, ht, -⟩ := ih hw n κ
    have hne : ¬ (a.ends ⟨⟨n, u.reverse, w' ++ v'⟩, κ⟩).isEmpty = true := by
      rw [List.isEmpty_iff]
      exact List.ne_nil_of_mem ht
    refine ⟨⟨⟨n, u.reverse, w' ++ v'⟩, κ⟩, ?_, by simp⟩
    rw [ends, List.nil_append, if_neg hne]
    exact List.mem_singleton_self _
  | notAfter q =>
    obtain ⟨rfl, hq⟩ := h
    exact leads_notAfter.mpr ⟨by rwa [List.head?_reverse], by simp⟩
  | lineStart =>
    obtain ⟨rfl, hq⟩ := h
    exact exists_mem_of_condition ((atLineStart_iff _).mpr (by rwa [List.reverse_reverse])) n κ
  | lineEnd =>
    obtain ⟨rfl, hq⟩ := h
    exact exists_mem_of_condition ((atLineEnd_iff _).mpr hq) n κ
  | textEnd =>
    obtain ⟨rfl, hq⟩ := h
    exact exists_mem_of_condition ((atTextEnd_iff _).mpr hq) n κ
  | wordEdge =>
    obtain ⟨rfl, hq⟩ := h
    refine leads_wordEdge.mpr ⟨?_, by simp⟩
    rw [Cursor.atWordEdge, Cursor.isAfter_eq_any, Cursor.isBefore_eq_any, bne_iff_ne,
      List.reverse_reverse]
    exact hq
  | star | again | notAhead => cases h

/-- A text has a piece of a pattern just if some part of it fits. -/
theorem occursIn_iff (hp : p.isExplicit = true) {t : Text} :
    p.occursIn t = true ↔ ∃ u w v, t = u ++ (w ++ v) ∧ p.Fits u w v := by
  rw [occursIn, isSome_search?]
  constructor
  · rintro ⟨u, v, rfl, m, hm, -⟩
    obtain ⟨w, ho, hf⟩ := exists_fits_of_mem_ends hp hm
    exact ⟨u, w, m.cursor.after, congrArg (u ++ ·) ho.after, by simpa using hf⟩
  · rintro ⟨u, w, v, rfl, hf⟩
    obtain ⟨m, hm, -⟩ := leads_of_fits hf u.length []
    exact ⟨u, w ++ v, rfl, m, hm, trivial⟩

/-! ### Fixed texts -/

theorem fits_text {x : Text} : (text x).Fits u w v ↔ w = x := by
  induction x generalizing u w with
  | nil => exact Iff.rfl
  | cons y x ih =>
    cases x with
    | nil => simp [text, all, char, Fits]
    | cons z x =>
      have hseq : (text (y :: z :: x)).Fits u w v ↔ (seq (char y) (text (z :: x))).Fits u w v :=
        Iff.rfl
      rw [hseq, Fits]
      simp only [ih, char, Fits, beq_iff_eq]
      constructor
      · rintro ⟨_, _, rfl, ⟨y, rfl, rfl⟩, rfl⟩
        rfl
      · rintro rfl
        exact ⟨[y], z :: x, rfl, ⟨y, rfl, rfl⟩, rfl⟩

theorem isExplicit_text (x : Text) : (text x).isExplicit = true := by
  induction x with
  | nil => rfl
  | cons y x ih =>
    cases x with
    | nil => rfl
    | cons z x => exact ih

/-! ### Blanks around a text -/

/-- What a pattern looks at beside a piece does not tell a blank from the end of the text. -/
@[simp]
def IsSteady : Pattern → Prop
  | .empty => True
  | .one _ => True
  | .run _ _ => True
  | .seq a b => a.IsSteady ∧ b.IsSteady
  | .alt a b => a.IsSteady ∧ b.IsSteady
  | .group _ a => a.IsSteady
  | .notAfter p => ∀ x, isBlank x = true → p x = false
  | .wordEdge => True
  | _ => False

theorem IsSteady.isExplicit (h : p.IsSteady) : p.isExplicit = true := by
  induction p with
  | seq a b iha ihb => simp [Pattern.isExplicit, iha h.1, ihb h.2]
  | alt a b iha ihb => simp [Pattern.isExplicit, iha h.1, ihb h.2]
  | group n a ih => exact ih h
  | _ => first | rfl | exact h.elim

@[simp] theorem isSteady_all {ps : List Pattern} : (all ps).IsSteady ↔ ∀ p ∈ ps, p.IsSteady := by
  induction ps with
  | nil => simp [all]
  | cons p ps ih =>
    cases ps with
    | nil => simp [all]
    | cons q ps => simp [all, ih]

@[simp] theorem isSteady_text (x : Text) : (text x).IsSteady := by simp [text, char]

@[simp] theorem isSteady_word (x : String) : (word x).IsSteady := isSteady_text _

@[simp] theorem isSteady_char (x : Char) : (char x).IsSteady := trivial

@[simp] theorem isSteady_many (q : Char → Bool) : (many q).IsSteady := trivial

@[simp] theorem isSteady_blanks : blanks.IsSteady := trivial

@[simp] theorem isSteady_indent : indent.IsSteady := trivial

@[simp] theorem isSteady_gap : gap.IsSteady := ⟨trivial, trivial⟩

@[simp] theorem isSteady_opt : (opt a).IsSteady ↔ a.IsSteady := and_iff_left trivial

@[simp] theorem isSteady_name : Pattern.name.IsSteady := ⟨trivial, trivial⟩

theorem any_getLast?_blanks {q : Char → Bool} (hq : ∀ x, isBlank x = true → q x = false)
    (hl : ∀ x ∈ l, isBlank x = true) (u : Text) :
    (l ++ u).getLast?.any q = u.getLast?.any q := by
  cases u using List.reverseRecOn with
  | nil =>
    rw [List.append_nil, List.getLast?_nil, Option.any_none, any_eq_false_iff]
    exact fun x hx => hq x (hl x (List.mem_of_getLast? hx))
  | append_singleton u y => simp [← List.append_assoc]

theorem any_head?_blanks {q : Char → Bool} (hq : ∀ x, isBlank x = true → q x = false)
    (hr : ∀ x ∈ r, isBlank x = true) (v : Text) : (v ++ r).head?.any q = v.head?.any q := by
  cases v with
  | nil =>
    rw [List.nil_append, List.head?_nil, Option.any_none, any_eq_false_iff]
    exact fun x hx => hq x (hr x (List.mem_of_mem_head? hx))
  | cons y v => rfl

theorem fits_blanks_iff (hp : p.IsSteady) (hl : ∀ x ∈ l, isBlank x = true)
    (hr : ∀ x ∈ r, isBlank x = true) : p.Fits (l ++ u) w (v ++ r) ↔ p.Fits u w v := by
  induction p generalizing u w v with
  | empty | one | run => exact Iff.rfl
  | seq a b iha ihb =>
    simp only [Fits, ← List.append_assoc _ v r, List.append_assoc l u, iha hp.1, ihb hp.2]
  | alt a b iha ihb => exact or_congr (iha hp.1) (ihb hp.2)
  | group n a ih => exact ih hp
  | notAfter q =>
    simp only [Fits, ← any_eq_false_iff, any_getLast?_blanks (q := q) hp hl]
  | wordEdge =>
    have hword : ∀ x, isBlank x = true → isWord x = false := fun _ => not_isWord_of_isBlank
    simp only [Fits, any_getLast?_blanks hword hl, any_head?_blanks hword hr]
  | _ => exact hp.elim

/-- Whether a pattern takes no character. -/
def isMark : Pattern → Bool
  | .ahead _ => true
  | .notAfter _ => true
  | .lineStart => true
  | .lineEnd => true
  | .wordEdge => true
  | _ => false

theorem eq_nil_of_isMark (hp : p.isMark = true) (h : p.Fits u w v) : w = [] := by
  cases p with
  | ahead | notAfter | lineStart | lineEnd | wordEdge => exact h.1
  | _ => cases hp

/-- Every piece has a character. -/
def IsFull : Pattern → Prop
  | .one _ => True
  | .seq a b => a.IsFull ∨ b.IsFull
  | .alt a b => a.IsFull ∧ b.IsFull
  | .group _ a => a.IsFull
  | _ => False

/-- No piece begins with a blank. -/
def OpensInInk : Pattern → Prop
  | .empty => True
  | .one p => ∀ x, p x = true → isBlank x = false
  | .run p _ => ∀ x, p x = true → isBlank x = false
  | .seq a b => a.OpensInInk ∧ (a.IsFull ∨ b.OpensInInk)
  | .alt a b => a.OpensInInk ∧ b.OpensInInk
  | .group _ a => a.OpensInInk
  | p => p.isMark = true

/-- Every piece begins with a character that is no blank. -/
structure StartsInInk (p : Pattern) : Prop where
  opens : p.OpensInInk
  full : p.IsFull

/-- Every piece ends with a character that is no blank. -/
def EndsInInk : Pattern → Prop
  | .one p => ∀ x, p x = true → isBlank x = false
  | .seq a b => b.EndsInInk ∨ b.isMark = true ∧ a.EndsInInk
  | .alt a b => a.EndsInInk ∧ b.EndsInInk
  | .group _ a => a.EndsInInk
  | _ => False

/-- The text begins with a character that is no blank. -/
def HasInkFirst (w : Text) : Prop := ∃ x ∈ w.head?, isBlank x = false

/-- The text ends with a character that is no blank. -/
def HasInkLast (w : Text) : Prop := ∃ x ∈ w.getLast?, isBlank x = false

theorem IsFull.ne_nil (hp : p.IsFull) (h : p.Fits u w v) : w ≠ [] := by
  induction p generalizing u w v with
  | one q =>
    obtain ⟨x, rfl, -⟩ := h
    exact List.cons_ne_nil _ _
  | seq a b iha ihb =>
    obtain ⟨w₁, w₂, rfl, h₁, h₂⟩ := h
    rcases hp with hp | hp
    · exact List.append_ne_nil_of_left_ne_nil (iha hp h₁) _
    · exact List.append_ne_nil_of_right_ne_nil _ (ihb hp h₂)
  | alt a b iha ihb => exact h.elim (iha hp.1) (ihb hp.2)
  | group n a ih => exact ih hp h
  | _ => exact hp.elim

theorem OpensInInk.not_isBlank (hp : p.OpensInInk) (h : p.Fits u w v) :
    ∀ x ∈ w.head?, isBlank x = false := by
  induction p generalizing u w v with
  | empty => rw [show w = [] from h]; exact nofun
  | one q =>
    obtain ⟨x, rfl, hx⟩ := h
    rintro _ ⟨⟩
    exact hp x hx
  | run q greedy => exact fun x hx => hp x (h x (List.mem_of_mem_head? hx))
  | seq a b iha ihb =>
    obtain ⟨w₁, w₂, rfl, h₁, h₂⟩ := h
    cases w₁ with
    | nil => exact ihb (hp.2.resolve_left fun hf => hf.ne_nil h₁ rfl) h₂
    | cons y w₁ => exact fun x hx => iha hp.1 h₁ x hx
  | alt a b iha ihb => exact h.elim (iha hp.1) (ihb hp.2)
  | group n a ih => exact ih hp h
  | _ => rw [eq_nil_of_isMark hp h]; exact nofun

theorem StartsInInk.hasInkFirst (hp : p.StartsInInk) (h : p.Fits u w v) : HasInkFirst w := by
  obtain ⟨x, w, rfl⟩ := List.exists_cons_of_ne_nil (hp.full.ne_nil h)
  exact ⟨x, rfl, hp.opens.not_isBlank h x rfl⟩

theorem StartsInInk.seq (h : a.StartsInInk) : (Pattern.seq a b).StartsInInk :=
  ⟨⟨h.opens, .inl h.full⟩, .inl h.full⟩

theorem StartsInInk.seq_of_opens (ha : a.OpensInInk) (h : b.StartsInInk) :
    (Pattern.seq a b).StartsInInk :=
  ⟨⟨ha, .inr h.opens⟩, .inr h.full⟩

theorem StartsInInk.alt (ha : a.StartsInInk) (hb : b.StartsInInk) :
    (Pattern.alt a b).StartsInInk :=
  ⟨⟨ha.opens, hb.opens⟩, ha.full, hb.full⟩

theorem StartsInInk.group (h : a.StartsInInk) (n : Nat) : (Pattern.group n a).StartsInInk :=
  ⟨h.opens, h.full⟩

theorem EndsInInk.hasInkLast (hp : p.EndsInInk) (h : p.Fits u w v) : HasInkLast w := by
  induction p generalizing u w v with
  | one q =>
    obtain ⟨x, rfl, hx⟩ := h
    exact ⟨x, rfl, hp x hx⟩
  | seq a b iha ihb =>
    obtain ⟨w₁, w₂, rfl, h₁, h₂⟩ := h
    rcases hp with hp | ⟨hm, hp⟩
    · obtain ⟨x, hx, hb⟩ := ihb hp h₂
      exact ⟨x, by rw [List.getLast?_append, Option.mem_def.mp hx]; rfl, hb⟩
    · obtain rfl := eq_nil_of_isMark hm h₂
      rw [List.append_nil]
      exact iha hp h₁
  | alt a b iha ihb => exact h.elim (iha hp.1) (ihb hp.2)
  | group n a ih => exact ih hp h
  | _ => exact hp.elim

theorem startsInInk_char {x : Char} (h : isBlank x = false) : (char x).StartsInInk where
  opens y hy := by
    obtain rfl : y = x := by simpa using hy
    exact h
  full := trivial

theorem startsInInk_text {x : Text} (h : x.head?.any (fun y => !isBlank y) = true) :
    (text x).StartsInInk := by
  match x with
  | [] => cases h
  | [y] => exact startsInInk_char (by simpa using h)
  | y :: z :: x => exact (startsInInk_char (by simpa using h)).seq

theorem endsInInk_text {x : Text} (h : x.getLast?.any (fun y => !isBlank y) = true) :
    (text x).EndsInInk := by
  induction x with
  | nil => cases h
  | cons y x ih =>
    cases x with
    | nil =>
      intro z hz
      obtain rfl : z = y := by simpa using hz
      simpa using h
    | cons z x => exact .inl (ih (by simpa using h))

theorem endsInInk_char {x : Char} (h : isBlank x = false) : (char x).EndsInInk :=
  endsInInk_text (x := [x]) (by simpa using h)

/-- A chain of patterns ends like its last one. -/
theorem endsInInk_all {ps : List Pattern} (h : ∃ p ∈ ps.getLast?, p.EndsInInk) :
    (all ps).EndsInInk := by
  induction ps with
  | nil =>
    obtain ⟨p, hp, -⟩ := h
    cases hp
  | cons q ps ih =>
    cases ps with
    | nil =>
      obtain ⟨p, hp, h⟩ := h
      obtain rfl := Option.some.inj hp
      exact h
    | cons q' ps => exact .inl (ih h)

/-- What begins and ends with other characters than blanks stands between the blanks around a
text. -/
theorem exists_of_blanks_append (hl : ∀ x ∈ l, isBlank x = true) (hr : ∀ x ∈ r, isBlank x = true)
    (he : l ++ (c ++ r) = u ++ (w ++ v)) (hfirst : HasInkFirst w) (hlast : HasInkLast w) :
    ∃ a b, c = a ++ (w ++ b) ∧ u = l ++ a ∧ v = b ++ r := by
  obtain ⟨x, hx, hxb⟩ := hfirst
  obtain ⟨y, hy, hyb⟩ := hlast
  obtain ⟨a, rfl, hc⟩ : ∃ a, u = l ++ a ∧ c ++ r = a ++ (w ++ v) := by
    rcases List.append_eq_append_iff.mp he with ⟨a, rfl, h⟩ | ⟨k, rfl, h⟩
    · exact ⟨a, rfl, h⟩
    · cases k with
      | nil => exact ⟨[], by simp, by simpa using h.symm⟩
      | cons z k =>
        obtain ⟨w, rfl⟩ := List.head?_eq_some_iff.mp (Option.mem_def.mp hx)
        obtain ⟨rfl, -⟩ := List.cons.inj h
        simp [hl x (by simp)] at hxb
  refine ⟨a, ?_⟩
  rw [← List.append_assoc] at hc
  rcases List.append_eq_append_iff.mp hc with ⟨k, h, rfl⟩ | ⟨b, rfl, rfl⟩
  · cases k using List.reverseRecOn with
    | nil => exact ⟨[], by simpa using h.symm, rfl, rfl⟩
    | append_singleton k z =>
      obtain ⟨w, rfl⟩ := List.getLast?_eq_some_iff.mp (Option.mem_def.mp hy)
      rw [← List.append_assoc, ← List.append_assoc] at h
      obtain ⟨-, hz⟩ := List.append_inj' h rfl
      obtain rfl := (List.cons.inj hz).1
      simp [hr y (by simp)] at hyb
  · exact ⟨b, by simp, rfl, rfl⟩

/-- A text has a piece of a steady pattern, if the pieces neither begin nor end with a blank, just
if it has one with blanks around it. -/
theorem occursIn_blanks (hp : p.IsSteady) (hfirst : p.StartsInInk) (hlast : p.EndsInInk)
    (hl : ∀ x ∈ l, isBlank x = true) (hr : ∀ x ∈ r, isBlank x = true) :
    p.occursIn (l ++ (c ++ r)) = p.occursIn c := by
  rw [Bool.eq_iff_iff, occursIn_iff hp.isExplicit, occursIn_iff hp.isExplicit]
  constructor
  · rintro ⟨u, w, v, he, hf⟩
    obtain ⟨a, b, rfl, rfl, rfl⟩ := exists_of_blanks_append hl hr he (hfirst.hasInkFirst hf)
      (hlast.hasInkLast hf)
    exact ⟨a, w, b, rfl, (fits_blanks_iff hp hl hr).mp hf⟩
  · rintro ⟨u, w, v, rfl, hf⟩
    exact ⟨l ++ u, w, v ++ r, by simp, (fits_blanks_iff hp hl hr).mpr hf⟩

/-! ### Pieces that begin a line -/

/-- The place where a line begins, said of the text before it. -/
def BeginsLine (u : Text) : Prop := ∀ x ∈ u.getLast?, x = '\n'

/-- What begins a line behind nothing but blanks does so without the blanks around the text, if
that has none at its beginning. -/
theorem exists_line_of_blanks_append {q : Text} (hl : ∀ x ∈ l, isBlank x = true)
    (hr : ∀ x ∈ r, isBlank x = true) (hc : ∀ x ∈ c.head?, isBlank x = false)
    (he : l ++ (c ++ r) = u ++ (q ++ (w ++ v))) (hu : BeginsLine u)
    (hq : ∀ x ∈ q, isBlank x = true) (hfirst : HasInkFirst w) (hlast : HasInkLast w) :
    ∃ a k b, c = a ++ (k ++ (w ++ b)) ∧ BeginsLine a ∧ (∀ x ∈ k, x ∈ q) ∧
      u ++ q = l ++ (a ++ k) ∧ v = b ++ r := by
  rw [← List.append_assoc u] at he
  obtain ⟨a, b, rfl, huq, rfl⟩ := exists_of_blanks_append hl hr he hfirst hlast
  rcases List.append_eq_append_iff.mp huq with ⟨k, rfl, rfl⟩ | ⟨a, rfl, rfl⟩
  · -- the line begins before the text, and so with the text
    have ha : a = [] := by
      cases a with
      | nil => rfl
      | cons y a =>
        have := hc y rfl
        simp [hq y (by simp)] at this
    subst ha
    exact ⟨[], [], b, rfl, nofun, nofun, by simp, rfl⟩
  · refine ⟨a, q, b, by simp, fun x hx => ?_, fun _ hx => hx, by simp, rfl⟩
    refine hu x ?_
    rw [List.getLast?_append, Option.mem_def.mp hx]
    exact rfl

/-- A text without blanks at its beginning has a piece of a steady pattern first on a line if it
has one with blanks around it. -/
theorem occursIn_line_of_blanks {k : Nat} (hp : p.IsSteady) (hfirst : p.StartsInInk)
    (hlast : p.EndsInInk) (hl : ∀ x ∈ l, isBlank x = true) (hr : ∀ x ∈ r, isBlank x = true)
    (hc : ∀ x ∈ c.head?, isBlank x = false)
    (h : (seq .lineStart (seq (.group k indent) p)).occursIn (l ++ (c ++ r)) = true) :
    (seq .lineStart (seq (.group k indent) p)).occursIn c = true := by
  have hexplicit : (seq .lineStart (seq (.group k indent) p)).isExplicit = true := by
    simp [isExplicit, indent, many, hp.isExplicit]
  rw [occursIn_iff hexplicit] at h ⊢
  obtain ⟨u, _, v, he, _, _, rfl, ⟨rfl, hu⟩, q, w, rfl, hq, hf⟩ := h
  rw [List.append_nil] at hf
  rw [List.nil_append, List.append_assoc] at he
  obtain ⟨a, k, b, rfl, ha, hk, huq, rfl⟩ := exists_line_of_blanks_append hl hr hc he hu
    (fun x hx => isBlank_of_isIndent (hq x hx)) (hfirst.hasInkFirst hf) (hlast.hasInkLast hf)
  rw [huq] at hf
  refine ⟨a, k ++ w, b, by simp, [], k ++ w, rfl, ⟨rfl, ha⟩, k, w, rfl,
    fun x hx => hq x (hk x hx), ?_⟩
  rw [List.append_nil]
  exact (fits_blanks_iff hp hl hr).mp hf

end Pattern

end SnippetGate
