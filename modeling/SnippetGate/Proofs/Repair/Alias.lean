import SnippetGate.Proofs.Contract.Mount
import SnippetGate.Proofs.Handler.Empty
import SnippetGate.Proofs.Pattern.Groups
import SnippetGate.Repair.EntryPoint

/-!
# The component to adopt

What the search for a component that can take the entry point's place finds: a name that is
declared, in one of two forms, in a text without a declaration of the entry point. The
declarations and the mount calls of a given name are described as texts.
-/

namespace SnippetGate

open Pattern Handler

variable {a b c d l n q r s t u v w : Text} {m : Match}

/-! ### Replacing the first piece -/

namespace Pattern

/-- Replacing the first piece leaves a text without pieces as it is, and puts the new text in the
place of one piece otherwise. -/
theorem replaceFirst_cases (p : Pattern) (f : Match → Text) (t : Text) :
    (p.occursIn t = false ∧ p.replaceFirst f t = t) ∨ ∃ a m v, t = a ++ (m.text ++ v) ∧
      p.Takes a m v ∧ p.replaceFirst f t = a ++ (f m ++ v) := by
  cases h : p.search? t with
  | none => exact .inl ⟨search?_eq_none_iff.mp h, by rw [replaceFirst, h]; rfl⟩
  | some m =>
    obtain ⟨a, v, rfl, htakes, -⟩ := exists_takes_of_searchFrom? (u := []) h
    rw [List.nil_append] at htakes
    refine .inr ⟨a, m, v, rfl, htakes, ?_⟩
    have hstart : m.start - 0 = a.length := htakes.start
    have hstop : m.stop - 0 = (a ++ m.text).length := by
      rw [Match.stop, htakes.last]
      rfl
    rw [replaceFirst, h, Option.toList_some, fillIn, hstart, hstop, List.take_left,
      ← List.append_assoc a, List.drop_left, fillIn, List.append_assoc]

end Pattern

namespace Repair

/-! ### Names of components -/

/-- The text is the name of a component. -/
def IsComponentName (n : Text) : Prop :=
  ∃ x r, n = x :: r ∧ x.isUpper = true ∧ ∀ z ∈ r, isNameChar z = true

theorem isNameChar_of_isUpper {x : Char} (h : x.isUpper = true) : isNameChar x = true := by
  have halpha : x.isAlpha = true := by rw [Char.isAlpha, h, Bool.true_or]
  rw [isNameChar, isWord, isAlphanumeric_of_isAlpha halpha]
  rfl

theorem IsComponentName.forall_isNameChar (hn : IsComponentName n) :
    ∀ z ∈ n, isNameChar z = true := by
  obtain ⟨x, r, rfl, hx, hr⟩ := hn
  exact List.forall_mem_cons.mpr ⟨isNameChar_of_isUpper hx, hr⟩

theorem fits_componentName : componentName.Fits u n v ↔ IsComponentName n := by
  constructor
  · rintro ⟨_, r, rfl, ⟨x, rfl, hx⟩, hr⟩
    exact ⟨x, r, rfl, hx, hr⟩
  · rintro ⟨x, r, rfl, hx, hr⟩
    exact ⟨[x], r, rfl, ⟨x, rfl, hx⟩, hr⟩

/-! ### Declarations -/

/-- A text that begins with a word, does not end in one and holds a closing parenthesis. -/
structure IsPhrase (w : Text) : Prop where
  head : w.head?.any isWord = true
  last : w.getLast?.any isWord = false
  paren : ')' ∈ w

theorem getLast?_eq_false_of_edge (hedge : u.getLast?.any isWord ≠ w.head?.any isWord)
    (hw : w.head?.any isWord = true) : u.getLast?.any isWord = false := by
  rwa [hw, ne_eq, Bool.not_eq_true] at hedge

theorem fits_noParameters : noParameters.Fits u w v ↔
    ∃ b, w = '(' :: (b ++ [')']) ∧ ∀ z ∈ b, isBlank z = true :=
  fits_enclosed

theorem isPhrase_of_functionNamed {p : Pattern} (h : (functionNamed p).Fits u w v) :
    u.getLast?.any isWord = false ∧ IsPhrase w := by
  obtain ⟨_, _, rfl, ⟨rfl, hedge⟩, _, _, rfl, hword, g, _, rfl, -, n, _, rfl, -, b, _, rfl, -,
    hparams⟩ := h
  obtain rfl := fits_text.mp hword
  obtain ⟨c, rfl, -⟩ := fits_noParameters.mp hparams
  refine ⟨getLast?_eq_false_of_edge hedge rfl, rfl, ?_, by simp⟩
  have hend : [] ++ ("function".toList ++ (g ++ (n ++ (b ++ '(' :: (c ++ [')']))))) =
      ("function".toList ++ (g ++ (n ++ (b ++ '(' :: c)))) ++ [')'] := by simp
  rw [hend, List.getLast?_concat]
  rfl

theorem isPhrase_of_arrowNamed (h : (arrowNamed n).Fits u w v) :
    u.getLast?.any isWord = false ∧ IsPhrase w := by
  obtain ⟨_, _, rfl, ⟨rfl, hedge⟩, k, _, rfl, hk, g, _, rfl, -, n, _, rfl, -, b, _, rfl, -, y, _,
    rfl, -, e, _, rfl, -, b', _, rfl, -, ps, _, rfl, hparams, b₁, _, rfl, -, y', _, rfl, -, _, _,
    rfl, -, b₂, _, rfl, -, hopen⟩ := h
  obtain ⟨c, rfl, -⟩ := fits_noParameters.mp hparams
  obtain rfl := fits_char.mp hopen
  have hhead : ∀ r : Text, (k ++ r).head?.any isWord = true := by
    have hdeclarator := fits_declarator.mp hk
    simp only [List.mem_cons, List.not_mem_nil, or_false] at hdeclarator
    rcases hdeclarator with rfl | rfl | rfl <;> exact fun _ => rfl
  rw [List.append_assoc k] at hedge
  refine ⟨getLast?_eq_false_of_edge hedge (hhead _), hhead _, ?_, by simp⟩
  simp only [← List.append_assoc, List.getLast?_concat]
  rfl

theorem isExplicit_functionNamed (n : Text) : (functionNamed (text n)).isExplicit = true := by
  simp [functionNamed, noParameters, all, isExplicit, isExplicit_text, word, gap, many1, blanks,
    many, char]

theorem isExplicit_arrowNamed (n : Text) : (arrowNamed n).isExplicit = true := by
  simp [arrowNamed, noParameters, Signature.declarator, all, any, isExplicit, isExplicit_text, word,
    gap, many1, few1, blanks, many, char, opt]

/-- The name of a function that is found is the name of a component, and the text declares it. -/
theorem isDeclared_of_function (h : (functionNamed (.group 1 componentName)).Takes u m v) :
    IsComponentName (m.group 1) ∧ isDeclared (u ++ (m.text ++ v)) (m.group 1) = true := by
  obtain ⟨κ, hfits, hgroup⟩ := h.fitsWith rfl
  obtain ⟨_, _, hw, hedge, hfits⟩ := (fitsWith_seq_iff rfl).mp hfits
  obtain ⟨k, _, rfl, hk, hfits⟩ := (fitsWith_seq_iff rfl).mp hfits
  obtain ⟨g, _, rfl, hg, hfits⟩ := (fitsWith_seq_iff rfl).mp hfits
  obtain ⟨n, _, κ, rfl, rfl, hn, hfits⟩ := (fitsWith_seq_group_iff rfl).mp hfits
  obtain ⟨hparams, rfl⟩ := (fitsWith_iff_of_isUngrouped rfl).mp hfits
  have hname : m.group 1 = n := hgroup 1
  refine ⟨hname ▸ fits_componentName.mp hn, ?_⟩
  have hnamed : (functionNamed (text n)).Fits u m.text v :=
    ⟨_, _, hw, hedge, k, _, rfl, hk, g, _, rfl, hg, n, _, rfl, fits_text.mpr rfl, hparams⟩
  rw [hname, isDeclared, Bool.or_eq_true]
  exact .inl (occursIn_iff_startsAt.mpr
    ⟨u, _, rfl, hnamed.startsAt (isExplicit_functionNamed n)⟩)

/-! ### Mount calls -/

/-- The text of a mount call of a component. -/
def IsMountOf (n w : Text) : Prop :=
  ∃ b₁ b₂ b₃ b₄ : Text, (∀ z ∈ b₁ ++ (b₂ ++ (b₃ ++ b₄)), isBlank z = true) ∧
    w = "render".toList ++ '(' :: (b₁ ++ '<' :: (b₂ ++ (n ++ (b₃ ++ '/' :: '>' :: (b₄ ++ [')'])))))

theorem fits_mountOf : (Settings.standard.mountOf (text n)).Fits u w v ↔
    Fresh u ∧ IsMountOf n w := by
  have hcall : Settings.standard.mountFunction = "render".toList := rfl
  constructor
  · rintro ⟨_, _, rfl, ⟨rfl, hu⟩, _, _, rfl, hname, _, _, rfl, hopen, b₁, _, rfl, hb₁, _, _, rfl,
      hless, b₂, _, rfl, hb₂, _, _, rfl, hn, b₃, _, rfl, hb₃, _, _, rfl, hend, b₄, _, rfl, hb₄,
      hclose⟩
    obtain rfl := fits_text.mp hname
    obtain rfl := fits_char.mp hopen
    obtain rfl := fits_char.mp hless
    obtain rfl := fits_text.mp hn
    obtain rfl := fits_text.mp hend
    obtain rfl := fits_char.mp hclose
    refine ⟨hu, b₁, b₂, b₃, b₄, ?_, by simp [hcall]⟩
    simp only [List.forall_mem_append]
    exact ⟨hb₁, hb₂, hb₃, hb₄⟩
  · rintro ⟨hu, b₁, b₂, b₃, b₄, hb, rfl⟩
    simp only [List.forall_mem_append] at hb
    exact ⟨[], _, rfl, ⟨rfl, hu⟩, _, _, rfl, fits_text.mpr rfl, ['('], _, rfl, fits_char.mpr rfl,
      b₁, _, rfl, hb.1, ['<'], _, rfl, fits_char.mpr rfl, b₂, _, rfl, hb.2.1, n, _, rfl,
      fits_text.mpr rfl, b₃, _, rfl, hb.2.2.1, _, _, rfl, fits_text.mpr rfl, b₄, _, rfl,
      hb.2.2.2, fits_char.mpr rfl⟩

theorem isExplicit_mountOf (n : Text) :
    (Settings.standard.mountOf (text n)).isExplicit = true := by
  simp [Settings.mountOf, Settings.freshCallee, all, isExplicit, isExplicit_text, word, blanks,
    many, char]

theorem startsAt_mountOf : (Settings.standard.mountOf (text n)).StartsAt u v ↔
    Fresh u ∧ ∃ w r, v = w ++ r ∧ IsMountOf n w := by
  rw [startsAt_iff (isExplicit_mountOf n)]
  simp only [fits_mountOf]
  constructor
  · rintro ⟨w, r, rfl, hu, hw⟩
    exact ⟨hu, w, r, rfl, hw⟩
  · rintro ⟨hu, w, r, rfl, hw⟩
    exact ⟨w, r, rfl, hu, hw⟩

theorem isMountOf_of_takes (h : (Settings.standard.mountOf (text n)).Takes u m v) :
    IsMountOf n m.text :=
  (fits_mountOf.mp (h.fits (isExplicit_mountOf n))).2

theorem neverEmpty_mountOf (n : Text) : (Settings.standard.mountOf (text n)).NeverEmpty :=
  IsFull.neverEmpty (isExplicit_mountOf n) (.inr (.inl (.inl trivial)))

theorem IsMountOf.exists_cons (hw : IsMountOf n w) : ∃ q, w = "render(".toList ++ q := by
  obtain ⟨b₁, b₂, b₃, b₄, -, rfl⟩ := hw
  exact ⟨_, rfl⟩

theorem IsMountOf.exists_concat (hw : IsMountOf n w) : ∃ q, w = q ++ [')'] := by
  obtain ⟨b₁, b₂, b₃, b₄, -, rfl⟩ := hw
  exact ⟨"render".toList ++ '(' :: (b₁ ++ '<' :: (b₂ ++ (n ++ (b₃ ++ '/' :: '>' :: b₄)))), by simp⟩

theorem isPhrase_of_isMountOf (hw : IsMountOf n w) : IsPhrase w := by
  obtain ⟨q, hq⟩ := hw.exists_cons
  obtain ⟨i, hi⟩ := hw.exists_concat
  refine ⟨?_, ?_, ?_⟩
  · rw [hq]
    rfl
  · rw [hi, List.getLast?_concat]
    rfl
  · simp [hi]

/-- The name in a mount call that is found is the name of a component. -/
theorem isComponentName_of_mount
    (h : (Settings.standard.mountOf (.group 1 componentName)).Takes u m v) :
    IsComponentName (m.group 1) := by
  obtain ⟨κ, hfits, hgroup⟩ := h.fitsWith rfl
  obtain ⟨_, _, -, -, hfits⟩ := (fitsWith_seq_iff rfl).mp hfits
  obtain ⟨_, _, -, -, hfits⟩ := (fitsWith_seq_iff rfl).mp hfits
  obtain ⟨_, _, -, -, hfits⟩ := (fitsWith_seq_iff rfl).mp hfits
  obtain ⟨_, _, -, -, hfits⟩ := (fitsWith_seq_iff rfl).mp hfits
  obtain ⟨_, _, -, -, hfits⟩ := (fitsWith_seq_iff rfl).mp hfits
  obtain ⟨_, _, -, -, hfits⟩ := (fitsWith_seq_iff rfl).mp hfits
  obtain ⟨n, _, κ, -, rfl, hn, hfits⟩ := (fitsWith_seq_group_iff rfl).mp hfits
  obtain ⟨-, rfl⟩ := (fitsWith_iff_of_isUngrouped rfl).mp hfits
  have hname : m.group 1 = n := hgroup 1
  exact hname ▸ fits_componentName.mp hn

/-! ### The component -/

theorem mem_of_onlyOne? {xs : List Text} (h : onlyOne? xs = some n) : n ∈ xs := by
  cases xs with
  | nil => cases h
  | cons x xs =>
    rw [onlyOne?] at h
    split at h
    · obtain rfl := Option.some.inj h
      exact List.mem_cons_self
    · cases h

/-- The component to adopt is declared, and the entry point is not. -/
theorem declared_of_alias? (h : alias? .standard t = some n) :
    Settings.standard.entryDeclaration.occursIn t = false ∧ IsComponentName n ∧
      isDeclared t n = true := by
  rw [alias?] at h
  split at h
  · cases h
  next hentry =>
  refine ⟨Bool.eq_false_iff.mpr hentry, ?_⟩
  split at h
  · next harrow =>
    obtain rfl := Option.some.inj h
    refine ⟨⟨'G', "eneratedLesson".toList, rfl, by decide, by decide⟩, ?_⟩
    rw [isDeclared, harrow, Bool.or_true]
  rw [Option.orElse_eq_orElse, Option.orElse_eq_or, Option.or_eq_some_iff] at h
  rcases h with hmounted | ⟨-, honly⟩
  · -- a component that is mounted
    have hdeclared := List.find?_some hmounted
    rw [Bool.and_eq_true] at hdeclared
    have hmem := List.mem_reverse.mp (List.mem_of_find?_eq_some hmounted)
    obtain ⟨m, hm, rfl⟩ := List.mem_map.mp hmem
    obtain ⟨u, v, -, htakes⟩ := exists_takes_of_mem_findAll hm
    exact ⟨isComponentName_of_mount htakes, hdeclared.2⟩
  · -- the only one there is
    obtain ⟨m, hm, rfl⟩ := List.mem_map.mp (mem_of_onlyOne? honly)
    obtain ⟨u, v, rfl, htakes⟩ := exists_takes_of_mem_findAll hm
    exact isDeclared_of_function htakes

end Repair

end SnippetGate
