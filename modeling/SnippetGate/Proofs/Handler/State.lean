import SnippetGate.Handler.Body
import SnippetGate.Proofs.Pattern.Groups

/-!
# Where the state of a component stands

The names that a state variable has are names of the script, and they stand in the declaration as
names of their own. The name of the collection is one as well, but what stands before it may be the
rest of a longer expression.
-/

namespace SnippetGate

open Pattern

variable {t u v w n : Text} {m : Match} {vs : List StateVar} {x : StateVar}

/-- A name of the script. -/
def IsName (n : Text) : Prop :=
  ∃ x r, n = x :: r ∧ isNameStart x = true ∧ ∀ y ∈ r, isNameChar y = true

theorem isNameChar_of_isNameStart {c : Char} (h : isNameStart c = true) : isNameChar c = true := by
  simp only [isNameStart, Bool.or_eq_true] at h
  rcases h with (h | h) | h
  · simp [isNameChar, isWord, isAlphanumeric_of_isAlpha h]
  · simp [isNameChar, isWord, h]
  · simp [isNameChar, h]

namespace IsName

theorem ne_nil (h : IsName n) : n ≠ [] := by
  obtain ⟨x, r, rfl, -⟩ := h
  exact List.cons_ne_nil x r

theorem isNameChar (h : IsName n) : ∀ y ∈ n, isNameChar y = true := by
  obtain ⟨x, r, rfl, hx, hr⟩ := h
  exact List.forall_mem_cons.mpr ⟨isNameChar_of_isNameStart hx, hr⟩

end IsName

theorem fits_name : Pattern.name.Fits u w v ↔ IsName w := by
  constructor
  · rintro ⟨_, r, rfl, ⟨x, rfl, hx⟩, hr⟩
    exact ⟨x, r, rfl, hx, hr⟩
  · rintro ⟨x, r, rfl, hx, hr⟩
    exact ⟨[x], r, rfl, ⟨x, rfl, hx⟩, hr⟩

/-- The name occurs in the text as one of its own: neither as a part of a longer name nor as a
member of something else. -/
def Text.IsOwn (t name : Text) : Prop :=
  ∃ u v, t = u ++ (name ++ v) ∧ (∀ x ∈ u.getLast?, isNameChar x = false ∧ x ≠ '.') ∧
    ∀ x ∈ v.head?, isNameChar x = false

/-- Where a name stands on its own can be looked for at all places. -/
theorem Text.isOwn_iff : IsOwn t n ↔ ∃ i ∈ List.range (t.length + 1), n <+: t.drop i ∧
    (t.take i).getLast?.any (fun x => isNameChar x || x == '.') = false ∧
      (t.drop (i + n.length)).head?.any isNameChar = false := by
  simp only [any_eq_false_iff, Bool.or_eq_false_iff, beq_eq_false_iff_ne]
  constructor
  · rintro ⟨u, v, rfl, hu, hv⟩
    refine ⟨u.length, List.mem_range.mpr (by simp), ?_, ?_, ?_⟩
    · rw [List.drop_left]
      exact List.prefix_append n v
    · rwa [List.take_left]
    · rwa [← List.drop_drop, List.drop_left, List.drop_left]
  · rintro ⟨i, -, ⟨v, hv⟩, hu, hafter⟩
    refine ⟨t.take i, v, by rw [hv, List.take_append_drop], hu, ?_⟩
    rwa [← List.drop_drop, ← hv, List.drop_left] at hafter

instance (t n : Text) : Decidable (t.IsOwn n) := decidable_of_iff' _ Text.isOwn_iff

/-- A text between blanks, around which no name goes on. -/
theorem Text.isOwn_of_blanks {l a b r : Text} {y z : Char} (ha : ∀ x ∈ a, isBlank x = true)
    (hb : ∀ x ∈ b, isBlank x = true) (hy : isNameChar y = false) (hy' : y ≠ '.')
    (hz : isNameChar z = false) : IsOwn (l ++ y :: (a ++ (n ++ (b ++ z :: r)))) n := by
  refine ⟨l ++ y :: a, b ++ z :: r, by simp, fun x hx => ?_, fun x hx => ?_⟩
  · rw [List.getLast?_append_cons, List.getLast?_cons] at hx
    obtain rfl := Option.some.inj hx
    cases hlast : a.getLast? with
    | none => exact ⟨hy, hy'⟩
    | some c =>
      have hc := ha c (List.mem_of_getLast? hlast)
      refine ⟨not_isNameChar_of_isBlank hc, ?_⟩
      rintro rfl
      exact absurd hc (by decide)
  · cases b with
    | nil => exact Option.some.inj hx ▸ hz
    | cons c b =>
      obtain rfl := Option.some.inj hx
      exact not_isNameChar_of_isBlank (hb c List.mem_cons_self)

/-- What stands around the names of a declaration. -/
theorem takes_declaration (h : StateVar.declaration.Takes u m v) :
    IsName (m.group 1) ∧ IsName (m.group 2) ∧ ∃ k a b c d r, m.text =
      k ++ '[' :: (a ++ (m.group 1 ++ (b ++ ',' :: (c ++ (m.group 2 ++ (d ++ ']' :: r)))))) ∧
      (∀ x ∈ a, isBlank x = true) ∧ (∀ x ∈ b, isBlank x = true) ∧ (∀ x ∈ c, isBlank x = true) ∧
      ∀ x ∈ d, isBlank x = true := by
  obtain ⟨κ, hκ, hgroup⟩ := h.fitsWith rfl
  rw [StateVar.declaration] at hκ
  obtain ⟨k, _, htext, -, hκ⟩ := (fitsWith_seq_iff rfl).mp hκ
  obtain ⟨k', _, rfl, -, hκ⟩ := (fitsWith_seq_iff rfl).mp hκ
  obtain ⟨_, _, rfl, ⟨x, rfl, hx⟩, hκ⟩ := (fitsWith_seq_iff rfl).mp hκ
  obtain ⟨a, _, rfl, ha, hκ⟩ := (fitsWith_seq_iff rfl).mp hκ
  obtain ⟨n₁, _, κ, rfl, rfl, hname, hκ⟩ := (fitsWith_seq_group_iff rfl).mp hκ
  obtain ⟨b, _, rfl, hb, hκ⟩ := (fitsWith_seq_iff rfl).mp hκ
  obtain ⟨_, _, rfl, ⟨y, rfl, hy⟩, hκ⟩ := (fitsWith_seq_iff rfl).mp hκ
  obtain ⟨c, _, rfl, hc, hκ⟩ := (fitsWith_seq_iff rfl).mp hκ
  obtain ⟨n₂, _, κ, rfl, rfl, hsetter, hκ⟩ := (fitsWith_seq_group_iff rfl).mp hκ
  obtain ⟨d, _, rfl, hd, hκ⟩ := (fitsWith_seq_iff rfl).mp hκ
  obtain ⟨_, r, rfl, ⟨z, rfl, hz⟩, hκ⟩ := (fitsWith_seq_iff rfl).mp hκ
  -- the initial expression is the only other group
  iterate 9 obtain ⟨_, _, -, -, hκ⟩ := (fitsWith_seq_iff rfl).mp hκ
  obtain ⟨n₃, _, κ, -, rfl, -, hκ⟩ := (fitsWith_seq_group_iff rfl).mp hκ
  obtain ⟨-, rfl⟩ := (fitsWith_iff_of_isUngrouped rfl).mp hκ
  have h₁ : m.group 1 = n₁ := hgroup 1
  have h₂ : m.group 2 = n₂ := hgroup 2
  obtain rfl : x = '[' := by simpa using hx
  obtain rfl : y = ',' := by simpa using hy
  obtain rfl : z = ']' := by simpa using hz
  rw [h₁, h₂]
  exact ⟨fits_name.mp hname, fits_name.mp hsetter, k ++ k', a, b, c, d, r, by simp [htext], ha, hb,
    hc, hd⟩

namespace StateVar

theorem mem_of_index? (h : index? vs = some x) : x ∈ vs := by
  rw [index?, Option.orElse_eq_orElse, Option.orElse_eq_or] at h
  rcases Option.or_eq_some_iff.mp h with h | ⟨-, h⟩
  · exact (List.mem_filter.mp (List.mem_of_find?_eq_some h)).1
  · exact (List.mem_filter.mp (List.mem_of_mem_head? h)).1

theorem mem_of_finish? (h : finish? vs = some x) : x ∈ vs := List.mem_of_find?_eq_some h

/-- The names of a variable that a text declares are names of their own in it. -/
theorem declared_of_mem_findAll (h : x ∈ findAll t) :
    IsName x.name ∧ IsName x.setter ∧ t.IsOwn x.name ∧ t.IsOwn x.setter := by
  obtain ⟨m, hm, rfl⟩ := List.mem_map.mp h
  obtain ⟨u, v, htext, htakes⟩ := exists_takes_of_mem_findAll hm
  obtain ⟨hname, hsetter, k, a, b, c, d, r, hw, ha, hb, hc, hd⟩ := takes_declaration htakes
  have hpre : t = (u ++ k) ++ '[' :: (a ++ (m.group 1 ++ (b ++ ',' :: (c ++ (m.group 2 ++
      (d ++ ']' :: (r ++ v))))))) := by
    rw [htext, hw]
    simp
  have hpost : t = (u ++ (k ++ '[' :: (a ++ (m.group 1 ++ b)))) ++ ',' :: (c ++ (m.group 2 ++
      (d ++ ']' :: (r ++ v)))) := by
    rw [hpre]
    simp
  refine ⟨hname, hsetter, ?_, ?_⟩
  · rw [hpre]
    exact Text.isOwn_of_blanks ha hb (by decide) (by decide) (by decide)
  · rw [hpost]
    exact Text.isOwn_of_blanks hc hd (by decide) (by decide) (by decide)

/-- What a length is taken of. -/
theorem takes_lengthOperand (h : lengthOperand.Takes u m v) :
    IsName (m.group 1) ∧ m.text = m.group 1 ++ ".length".toList := by
  obtain ⟨κ, hκ, hgroup⟩ := h.fitsWith rfl
  obtain ⟨_, _, htext, ⟨rfl, -⟩, hκ⟩ := (fitsWith_seq_iff rfl).mp hκ
  obtain ⟨n, _, κ, rfl, rfl, hname, hκ⟩ := (fitsWith_seq_group_iff rfl).mp hκ
  obtain ⟨⟨_, _, rfl, hlength, rfl, -⟩, rfl⟩ := (fitsWith_iff_of_isUngrouped rfl).mp hκ
  obtain rfl := fits_text.mp hlength
  have hn : m.group 1 = n := hgroup 1
  rw [hn]
  exact ⟨fits_name.mp hname, by simp [htext]⟩

/-- The collection stands before a length that is taken. -/
theorem exists_of_collection? (h : collection? t vs = some n) :
    IsName n ∧ ∃ u v, t = u ++ (n ++ (".length".toList ++ v)) := by
  obtain ⟨m, hm, rfl⟩ := List.mem_map.mp (List.mem_of_find?_eq_some h)
  obtain ⟨u, v, htext, htakes⟩ := exists_takes_of_mem_findAll hm
  obtain ⟨hname, hw⟩ := takes_lengthOperand htakes
  exact ⟨hname, u, v, by rw [htext, hw, List.append_assoc]⟩

end StateVar

end SnippetGate
