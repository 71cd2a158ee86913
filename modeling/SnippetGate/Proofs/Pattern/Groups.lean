import SnippetGate.Proofs.Pattern.Replaced

/-!
# Pieces with their groups

What the groups of a pattern take from a piece, said as texts: the texts are listed as they are
remembered, the latest first.
-/

namespace SnippetGate

namespace Progress

/-- The texts that the groups took, the latest first. -/
def taken (s : Progress) : List (Nat × Text) := s.captures.map fun c => (c.1, c.2.text)

theorem taken_remember (s : Progress) (n : Nat) (start : Cursor) :
    (s.remember n start).taken = (n, start.between s.cursor) :: s.taken := rfl

theorem taken_congr {s t : Progress} (h : t.captures = s.captures) : t.taken = s.taken := by
  rw [taken, h, taken]

theorem lookup_taken (s : Progress) (n : Nat) :
    s.taken.lookup n = (s.group? n).map Capture.text := by
  rw [taken, group?]
  induction s.captures with
  | nil => rfl
  | cons c cs ih =>
    rw [List.map_cons, List.lookup_cons, List.lookup_cons, ih]
    cases n == c.1 <;> rfl

end Progress

/-- What a group took from a piece. -/
theorem Match.group_eq (m : Match) (n : Nat) : m.group n = (m.last.taken.lookup n).getD [] := by
  rw [Match.group, Progress.lookup_taken]

namespace Pattern

variable {p a b : Pattern} {s t : Progress} {m : Match} {c : Cursor} {u v w : Text}
  {κ : List (Nat × Text)}

/-- The text `w`, which stands between `u` and `v`, is a piece of the pattern from which the groups
take the texts `κ`. -/
def FitsWith : Pattern → Text → Text → Text → List (Nat × Text) → Prop
  | .seq a b, u, w, v, κ => ∃ w₁ w₂ κ₁ κ₂, w = w₁ ++ w₂ ∧ κ = κ₂ ++ κ₁ ∧
      a.FitsWith u w₁ (w₂ ++ v) κ₁ ∧ b.FitsWith (u ++ w₁) w₂ v κ₂
  | .alt a b, u, w, v, κ => a.FitsWith u w v κ ∨ b.FitsWith u w v κ
  | .group n a, u, w, v, κ => ∃ κ', κ = (n, w) :: κ' ∧ a.FitsWith u w v κ'
  | p, u, w, v, κ => p.Fits u w v ∧ κ = []

/-- A piece is one from which the groups take some texts. -/
theorem fits_iff_exists_fitsWith : p.Fits u w v ↔ ∃ κ, p.FitsWith u w v κ := by
  induction p generalizing u w v with
  | seq a b iha ihb =>
    constructor
    · rintro ⟨w₁, w₂, rfl, ha, hb⟩
      obtain ⟨κ₁, h₁⟩ := iha.mp ha
      obtain ⟨κ₂, h₂⟩ := ihb.mp hb
      exact ⟨_, w₁, w₂, κ₁, κ₂, rfl, rfl, h₁, h₂⟩
    · rintro ⟨_, w₁, w₂, κ₁, κ₂, rfl, rfl, h₁, h₂⟩
      exact ⟨w₁, w₂, rfl, iha.mpr ⟨κ₁, h₁⟩, ihb.mpr ⟨κ₂, h₂⟩⟩
  | alt a b iha ihb =>
    simp only [Fits, FitsWith, iha, ihb, exists_or]
  | group n a ih =>
    constructor
    · intro h
      obtain ⟨κ, hκ⟩ := ih.mp h
      exact ⟨_, κ, rfl, hκ⟩
    · rintro ⟨_, κ, rfl, hκ⟩
      exact ih.mpr ⟨κ, hκ⟩
  | _ => simp [FitsWith]

/-- Without groups nothing is taken. -/
theorem fitsWith_iff_of_isUngrouped (hp : p.isUngrouped = true) :
    p.FitsWith u w v κ ↔ p.Fits u w v ∧ κ = [] := by
  induction p generalizing u w v κ with
  | seq a b iha ihb =>
    rw [isUngrouped, Bool.and_eq_true] at hp
    simp only [FitsWith, Fits, iha hp.1, ihb hp.2]
    constructor
    · rintro ⟨w₁, w₂, _, _, rfl, rfl, ⟨ha, rfl⟩, hb, rfl⟩
      exact ⟨⟨w₁, w₂, rfl, ha, hb⟩, rfl⟩
    · rintro ⟨⟨w₁, w₂, rfl, ha, hb⟩, rfl⟩
      exact ⟨w₁, w₂, [], [], rfl, rfl, ⟨ha, rfl⟩, hb, rfl⟩
  | alt a b iha ihb =>
    rw [isUngrouped, Bool.and_eq_true] at hp
    simp only [FitsWith, Fits, iha hp.1, ihb hp.2, or_and_right]
  | group n a => cases hp
  | _ => rfl

/-- A part without groups comes first. -/
theorem fitsWith_seq_iff (ha : a.isUngrouped = true) : (Pattern.seq a b).FitsWith u w v κ ↔
    ∃ w₁ w₂, w = w₁ ++ w₂ ∧ a.Fits u w₁ (w₂ ++ v) ∧ b.FitsWith (u ++ w₁) w₂ v κ := by
  simp only [FitsWith, fitsWith_iff_of_isUngrouped ha]
  constructor
  · rintro ⟨w₁, w₂, _, κ₂, rfl, rfl, ⟨h₁, rfl⟩, h₂⟩
    exact ⟨w₁, w₂, rfl, h₁, by rwa [List.append_nil]⟩
  · rintro ⟨w₁, w₂, rfl, h₁, h₂⟩
    exact ⟨w₁, w₂, [], κ, rfl, (List.append_nil κ).symm, ⟨h₁, rfl⟩, h₂⟩

/-- A group comes first. -/
theorem fitsWith_seq_group_iff {n : Nat} (ha : a.isUngrouped = true) :
    (Pattern.seq (.group n a) b).FitsWith u w v κ ↔ ∃ w₁ w₂ κ', w = w₁ ++ w₂ ∧
      κ = κ' ++ [(n, w₁)] ∧ a.Fits u w₁ (w₂ ++ v) ∧ b.FitsWith (u ++ w₁) w₂ v κ' := by
  simp only [FitsWith, fitsWith_iff_of_isUngrouped ha]
  constructor
  · rintro ⟨w₁, w₂, _, κ₂, rfl, rfl, ⟨_, rfl, h₁, rfl⟩, h₂⟩
    exact ⟨w₁, w₂, κ₂, rfl, rfl, h₁, h₂⟩
  · rintro ⟨w₁, w₂, κ', rfl, rfl, h₁, h₂⟩
    exact ⟨w₁, w₂, [(n, w₁)], κ', rfl, rfl, ⟨[], rfl, h₁, rfl⟩, h₂⟩

/-- Whether the pattern looks at nothing but the piece itself. -/
def isBlind : Pattern → Bool
  | .empty | .one _ | .run _ _ => true
  | .seq a b | .alt a b => a.isBlind && b.isBlind
  | .group _ a => a.isBlind
  | _ => false

/-- What stands around the piece does not matter then. -/
theorem FitsWith.move (hp : p.isBlind = true) (h : p.FitsWith u w v κ) (u' v' : Text) :
    p.FitsWith u' w v' κ := by
  induction p generalizing u w v κ u' v' with
  | seq a b iha ihb =>
    rw [isBlind, Bool.and_eq_true] at hp
    obtain ⟨w₁, w₂, κ₁, κ₂, rfl, rfl, h₁, h₂⟩ := h
    exact ⟨w₁, w₂, κ₁, κ₂, rfl, rfl, iha hp.1 h₁ _ _, ihb hp.2 h₂ _ _⟩
  | alt a b iha ihb =>
    rw [isBlind, Bool.and_eq_true] at hp
    exact h.imp (iha hp.1 · _ _) (ihb hp.2 · _ _)
  | group n a ih =>
    obtain ⟨κ, rfl, h⟩ := h
    exact ⟨κ, rfl, ih hp h _ _⟩
  | empty => exact h
  | one q => exact h
  | run q greedy => exact h
  | _ => cases hp

/-- Every end lies behind a text that fits, with what the groups took from it. -/
theorem exists_fitsWith_of_mem_ends (hp : p.isExplicit = true) (h : t ∈ p.ends s) :
    ∃ w κ, s.cursor.Over w t.cursor ∧ p.FitsWith s.cursor.before.reverse w t.cursor.after κ ∧
      t.taken = κ ++ s.taken := by
  induction p generalizing s t with
  | seq a b iha ihb =>
    rw [isExplicit, Bool.and_eq_true] at hp
    obtain ⟨m, hm, ht⟩ := mem_ends_seq.mp h
    obtain ⟨w₁, κ₁, h₁, hf₁, hκ₁⟩ := iha hp.1 hm
    obtain ⟨w₂, κ₂, h₂, hf₂, hκ₂⟩ := ihb hp.2 ht
    rw [h₁.before, List.reverse_append, List.reverse_reverse] at hf₂
    refine ⟨w₁ ++ w₂, κ₂ ++ κ₁, h₁.trans h₂, ⟨w₁, w₂, κ₁, κ₂, rfl, rfl, h₂.after ▸ hf₁, hf₂⟩, ?_⟩
    rw [hκ₂, hκ₁, List.append_assoc]
  | alt a b iha ihb =>
    rw [isExplicit, Bool.and_eq_true] at hp
    rcases mem_ends_alt.mp h with h | h
    · obtain ⟨w, κ, ho, hf, hκ⟩ := iha hp.1 h
      exact ⟨w, κ, ho, .inl hf, hκ⟩
    · obtain ⟨w, κ, ho, hf, hκ⟩ := ihb hp.2 h
      exact ⟨w, κ, ho, .inr hf, hκ⟩
  | group n a ih =>
    obtain ⟨m, hm, rfl⟩ := mem_ends_group h
    obtain ⟨w, κ, ho, hf, hκ⟩ := ih hp hm
    refine ⟨w, (n, w) :: κ, ho, ⟨κ, rfl, hf⟩, ?_⟩
    rw [Progress.taken_remember, hκ, ho.between, List.cons_append]
  | star a greedy => cases hp
  | _ =>
    obtain ⟨w, ho, hf⟩ := exists_fits_of_mem_ends hp h
    exact ⟨w, [], ho, ⟨hf, rfl⟩, Progress.taken_congr (captures_of_mem_ends rfl h)⟩

theorem Takes.fitsWith (hp : p.isExplicit = true) (h : p.Takes u m v) :
    ∃ κ, p.FitsWith u m.text v κ ∧ ∀ n, m.group n = (κ.lookup n).getD [] := by
  obtain ⟨w, κ, ho, hf, hκ⟩ := exists_fitsWith_of_mem_ends hp h.mem_ends
  have htext : m.text = w := ho.between
  rw [h.after, h.first] at hf
  have hu : (Cursor.amid u (m.text ++ v)).before.reverse = u := List.reverse_reverse u
  refine ⟨κ, by rwa [htext, ← hu], fun n => ?_⟩
  have hnone : (⟨m.first, []⟩ : Progress).taken = [] := rfl
  rw [Match.group_eq, hκ, hnone, List.append_nil]

/-- What is found among all pieces is the preferred piece at its place. -/
theorem exists_takes_of_mem_findAll {t : Text} (h : m ∈ p.findAll t) :
    ∃ u v, t = u ++ (m.text ++ v) ∧ p.Takes u m v :=
  (finds_of_mem_findAll h).exists_takes (u := []) (matchAt?_of_mem_findUpTo h)

end Pattern

end SnippetGate
