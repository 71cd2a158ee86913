import SnippetGate.Contract.Corruption
import SnippetGate.Proofs.Pattern.Replaced

/-!
# Words in class lists

A pass over a text mends one word in each class list, the first one. A list ends with a quote or
where another one begins. So the number of passes that a text takes is the greatest number of words
in one of its lists.
-/

namespace SnippetGate.Signature

open Pattern

variable {bad good : Text} {n k : Nat} {a b g l o r s t u v v' w x y z : Text} {m : Match}

/-! ### Class lists -/

/-- What a class list begins with: the attribute, an equals sign, and a quote or a brace. -/
def IsOpener (o : Text) : Prop :=
  ∃ b c q, o = "className".toList ++ (b ++ '=' :: (c ++ [q])) ∧ (∀ x ∈ b, isBlank x = true) ∧
    (∀ x ∈ c, isBlank x = true) ∧ (isClassQuote q || q == '{') = true

/-- Neither does a quote end a list in the text, nor does another list begin. -/
structure IsListed (l : Text) : Prop where
  quote : ∀ x ∈ l, isClassQuote x = false
  opener : ∀ o, IsOpener o → ¬ o <:+: l

/-- What stands between the two texts does not go on with a word on either side. -/
structure Alone (l r : Text) : Prop where
  before : ∀ x ∈ l.getLast?, isWord x = false
  after : ∀ x ∈ r.head?, isWord x = false

/-- In the text at least `n` of the words stand one behind the other, before the list ends. -/
def HoldsWords (bad : Text) : Nat → Text → Prop
  | 0, _ => True
  | n + 1, v => ∃ l r, v = l ++ (bad ++ r) ∧ Alone l r ∧ IsListed l ∧ HoldsWords bad n r

/-- Some class list of the text has at least `n` of the words. -/
def HasList (bad : Text) (n : Nat) (t : Text) : Prop :=
  ∃ u o v, t = u ++ (o ++ v) ∧ IsOpener o ∧ HoldsWords bad n v

/-- A character that no class list begins with. -/
def IsForeign (x : Char) : Prop := isBlank x = false ∧ x ∉ "className=\x7b\x22\x27\x60".toList

instance (x : Char) : Decidable (IsForeign x) := instDecidableAnd

/-- A text that no class list begins before or in and goes on behind its first character. -/
structure IsDivider (w : Text) : Prop where
  head : ∃ x ∈ w.head?, IsForeign x
  notMem : 'c' ∉ w

/-- A word that belongs to no beginning of a class list. -/
structure IsClassWord (w : Text) : Prop extends IsDivider w where
  word : ∀ x ∈ w, isWord x = true

/-- The last character of what a class list begins with. -/
theorem cases_of_isQuote {q : Char} (hq : (isClassQuote q || q == '{') = true) :
    q = '\x22' ∨ q = '\x27' ∨ q = '\x60' ∨ q = '{' := by
  simpa [isClassQuote, or_assoc] using hq

theorem isBlank_eq_false_of_isQuote {q : Char} (hq : (isClassQuote q || q == '{') = true) :
    isBlank q = false := by
  rcases cases_of_isQuote hq with rfl | rfl | rfl | rfl <;> decide

namespace IsOpener

theorem exists_cons (h : IsOpener o) : ∃ r, o = 'c' :: r ∧ 'c' ∉ r := by
  obtain ⟨b, c, q, rfl, hb, hc, hq⟩ := h
  refine ⟨"lassName".toList ++ (b ++ '=' :: (c ++ [q])), rfl, ?_⟩
  have hb' : 'c' ∉ b := fun h => absurd (hb _ h) (by decide)
  have hc' : 'c' ∉ c := fun h => absurd (hc _ h) (by decide)
  have hq' : 'c' ≠ q := by
    rintro rfl
    exact absurd hq (by decide)
  simp [hb', hc', hq']

theorem not_mem (h : IsOpener o) {x : Char} (hx : IsForeign x) : x ∉ o := by
  obtain ⟨b, c, q, rfl, hb, hc, hq⟩ := h
  obtain ⟨hblank, hmem⟩ := hx
  have hb' : x ∉ b := fun h => by simp [hb _ h] at hblank
  have hc' : x ∉ c := fun h => by simp [hc _ h] at hblank
  have hq' : x ≠ q := by
    rintro rfl
    rcases cases_of_isQuote hq with rfl | rfl | rfl | rfl <;> exact hmem (by decide)
  simp only [List.mem_append, List.mem_cons, List.not_mem_nil, or_false, not_or]
  refine ⟨fun h => hmem ?_, hb', fun h => hmem (h ▸ by decide), hc', hq'⟩
  exact List.mem_append_left "=\x7b\x22\x27\x60".toList h

theorem not_isWord (h : IsOpener o) : ∀ x ∈ o.getLast?, isWord x = false := by
  obtain ⟨b, c, q, rfl, hb, hc, hq⟩ := h
  intro x hx
  have hlast : ("className".toList ++ (b ++ '=' :: (c ++ [q]))).getLast? = some q := by
    rw [← List.cons_append, ← List.append_assoc, ← List.append_assoc, List.getLast?_concat]
  rw [hlast] at hx
  obtain rfl := Option.some.inj hx
  rcases cases_of_isQuote hq with rfl | rfl | rfl | rfl <;> decide

/-- At a place at most one list begins. -/
theorem unique (h : IsOpener o) (h' : IsOpener l) (he : o ++ s = l ++ r) : o = l ∧ s = r := by
  obtain ⟨b, c, q, rfl, hb, hc, hq⟩ := h
  obtain ⟨b', c', q', rfl, hb', hc', hq'⟩ := h'
  simp only [List.append_assoc, List.cons_append, List.nil_append] at he
  obtain ⟨rfl, -, he⟩ := Text.eq_of_first_of_other hb hb' (by decide) (by decide)
    (List.append_cancel_left he)
  have hends := isBlank_eq_false_of_isQuote hq
  obtain ⟨rfl, rfl, rfl⟩ := Text.eq_of_first_of_other hc hc' hends
    (isBlank_eq_false_of_isQuote hq') he
  exact ⟨rfl, rfl⟩

end IsOpener

/-- Every list begins before a divider or behind it. -/
theorem IsDivider.opener_cases (hw : IsDivider w) (ho : IsOpener o)
    (h : z ++ (w ++ v) = x ++ (o ++ r)) :
    (∃ s, z = x ++ (o ++ s) ∧ r = s ++ (w ++ v)) ∨ ∃ s, x = z ++ (w ++ s) ∧ v = s ++ (o ++ r) := by
  obtain ⟨y, hy, hforeign⟩ := hw.head
  obtain ⟨w', rfl⟩ := List.head?_eq_some_iff.mp (Option.mem_def.mp hy)
  rcases List.append_eq_append_iff.mp h with ⟨c, rfl, hc⟩ | ⟨c, rfl, hc⟩
  · obtain ⟨o', ho', -⟩ := ho.exists_cons
    have hsplit : c ++ 'c' :: (o' ++ r) = (y :: w') ++ v := by rw [hc, ho']; rfl
    obtain ⟨s, rfl, rfl⟩ := Text.exists_of_append_cons_eq hsplit hw.notMem
    exact .inr ⟨s, rfl, by rw [ho']; rfl⟩
  · obtain ⟨s, rfl, rfl⟩ := Text.exists_of_append_cons_eq hc.symm (ho.not_mem hforeign)
    exact .inl ⟨s, rfl, rfl⟩

theorem IsListed.append (hz : IsListed z) (hw : IsDivider w) (hv : IsListed (w ++ v)) :
    IsListed (z ++ (w ++ v)) where
  quote := List.forall_mem_append.mpr ⟨hz.quote, hv.quote⟩
  opener o ho := by
    rintro ⟨x, r, h⟩
    rw [List.append_assoc] at h
    rcases hw.opener_cases ho h.symm with ⟨s, rfl, -⟩ | ⟨s, -, rfl⟩
    · exact hz.opener o ho ⟨x, s, by simp⟩
    · exact hv.opener o ho ⟨w ++ s, r, by simp⟩

theorem IsListed.of_append (h : IsListed (l ++ r)) : IsListed l ∧ IsListed r := by
  obtain ⟨hl, hr⟩ := List.forall_mem_append.mp h.quote
  exact ⟨⟨hl, fun o ho hi => h.opener o ho (hi.trans (List.prefix_append l r).isInfix)⟩,
    ⟨hr, fun o ho hi => h.opener o ho (hi.trans (List.suffix_append l r).isInfix)⟩⟩

/-- Behind the beginning of a list, the last list that begins before a quote. -/
theorem IsOpener.exists_last (ho : IsOpener o) (n : Nat) (g : Text) (hn : g.length ≤ n)
    (hg : ∀ x ∈ g, isClassQuote x = false) :
    ∃ x l s, o ++ g = x ++ (l ++ s) ∧ IsOpener l ∧ IsListed s := by
  induction n generalizing o g with
  | zero =>
    obtain rfl := List.length_eq_zero_iff.mp (Nat.le_zero.mp hn)
    refine ⟨[], o, [], rfl, ho, nofun, fun l hl hi => ?_⟩
    obtain ⟨r, rfl, -⟩ := hl.exists_cons
    exact List.cons_ne_nil _ _ (List.infix_nil.mp hi)
  | succ n ih =>
    by_cases hlisted : ∃ l, IsOpener l ∧ l <:+: g
    · obtain ⟨l, hl, x, r, rfl⟩ := hlisted
      obtain ⟨q, rfl, -⟩ := hl.exists_cons
      have hr : r.length ≤ n := by
        simp only [List.length_append, List.length_cons] at hn
        omega
      obtain ⟨y, l', s, he, hl', hs⟩ := ih hl r hr fun z hz => hg z (by simp [hz])
      exact ⟨o ++ (x ++ y), l', s, by simp [← he], hl', hs⟩
    · refine ⟨[], o, g, rfl, ho, hg, fun l hl hi => hlisted ⟨l, hl, hi⟩⟩

/-! ### Words -/

namespace IsClassWord

variable (hw : IsClassWord w)

include hw

theorem ne_nil : w ≠ [] := by
  rintro rfl
  obtain ⟨x, hx, -⟩ := hw.head
  cases hx

/-- What ends with a part of the word is not what a word stands behind. -/
theorem not_before (h : w = l ++ r) (hl : l ≠ []) (hz : ∀ x ∈ (z ++ l).getLast?, isWord x = false) :
    False := by
  rw [List.getLast?_append_of_ne_nil z hl] at hz
  have hmem : l.getLast hl ∈ w := h ▸ List.mem_append_left r (List.getLast_mem hl)
  have := hz _ (List.getLast?_eq_some_getLast hl)
  rw [hw.word _ hmem] at this
  cases this

/-- A word stands before or behind a place where no word goes on. -/
theorem alone_cases (hz : ∀ x ∈ z.getLast?, isWord x = false) (h : z ++ y = l ++ (w ++ r))
    (ha : Alone l r) :
    (∃ s, z = l ++ (w ++ s) ∧ Alone l s) ∨ ∃ k, l = z ++ k ∧ y = k ++ (w ++ r) := by
  rcases List.append_eq_append_iff.mp h with ⟨k, rfl, hk⟩ | ⟨c, rfl, hc⟩
  · exact .inr ⟨k, rfl, hk⟩
  rcases List.append_eq_append_iff.mp hc with ⟨s, rfl, rfl⟩ | ⟨d, hd, rfl⟩
  · refine .inl ⟨s, rfl, ha.before, fun x hx => ha.after x ?_⟩
    rw [List.head?_append, Option.mem_def.mp hx]
    rfl
  · by_cases hne : c = []
    · subst hne
      exact .inr ⟨[], by simp, by simp [hd]⟩
    · exact (hw.not_before hd hne hz).elim

/-- Where a word stands, another word either is the same or stands farther on. -/
theorem word_cases (hv : IsClassWord v) (hr : ∀ x ∈ r.head?, isWord x = false)
    (h : v ++ r = l ++ (w ++ s)) (ha : Alone l s) :
    (l = [] ∧ v = w ∧ s = r) ∨ ∃ k, l = v ++ k ∧ r = k ++ (w ++ s) := by
  have hrun {w r : Text} (hw : ∀ x ∈ w, isWord x = true) (hr : ∀ x ∈ r.head?, isWord x = false) :
      (w ++ r).takeWhile isWord = w := by
    rw [List.takeWhile_append_of_pos hw]
    cases r with
    | nil => simp
    | cons x r => simp [hr x rfl]
  by_cases hl : l = []
  · subst hl
    have hsame : v = w := by
      rw [← hrun hv.word hr, ← hrun hw.word ha.after, h, List.nil_append]
    subst hsame
    exact .inl ⟨rfl, rfl, (List.append_cancel_left h).symm⟩
  · rcases List.append_eq_append_iff.mp h with ⟨k, rfl, hk⟩ | ⟨c, hc, -⟩
    · exact .inr ⟨k, rfl, hk⟩
    · exact (hv.not_before (z := []) hc hl ha.before).elim

end IsClassWord

theorem Alone.of_append (h : Alone (z ++ l) r) : Alone l r where
  before x hx := h.before x (by rw [List.getLast?_append, Option.mem_def.mp hx]; rfl)
  after := h.after

theorem Alone.append (h : Alone l r) (hz : ∀ x ∈ z.getLast?, isWord x = false) :
    Alone (z ++ l) r where
  before x hx := by
    by_cases hl : l = []
    · rw [hl, List.append_nil] at hx
      exact hz x hx
    · rw [List.getLast?_append_of_ne_nil z hl] at hx
      exact h.before x hx
  after := h.after

/-- Behind the beginning of a list it does not matter what stands before. -/
theorem IsOpener.alone_iff (ho : IsOpener o) : Alone (u ++ (o ++ g)) r ↔ Alone g r := by
  rw [← List.append_assoc]
  refine ⟨Alone.of_append, fun h => h.append fun x hx => ho.not_isWord x ?_⟩
  obtain ⟨q, rfl, -⟩ := ho.exists_cons
  rwa [List.getLast?_append_of_ne_nil u (List.cons_ne_nil _ _)] at hx

theorem isListed_nil : IsListed [] where
  quote := nofun
  opener o ho hi := by
    obtain ⟨r, rfl, -⟩ := ho.exists_cons
    exact List.cons_ne_nil _ _ (List.infix_nil.mp hi)

theorem IsListed.word_append (hl : IsListed l) (hw : IsClassWord w) : IsListed (w ++ l) where
  quote := by
    refine List.forall_mem_append.mpr ⟨fun x hx => ?_, hl.quote⟩
    have hword := hw.word x hx
    by_contra hq
    rw [Bool.not_eq_false] at hq
    rcases cases_of_isQuote (q := x) (by simp [hq]) with rfl | rfl | rfl | rfl <;>
      exact absurd hword (by decide)
  opener o ho := by
    rintro ⟨x, r, h⟩
    rw [List.append_assoc] at h
    rcases hw.opener_cases (z := []) ho h.symm with ⟨s, hs, -⟩ | ⟨s, -, rfl⟩
    · obtain ⟨q, rfl, -⟩ := ho.exists_cons
      simp at hs
    · exact hl.opener o ho ⟨s, r, by simp⟩

/-! ### How many words a list has -/

/-- In the text the word does not stand, but where a list has ended or another one has begun. -/
def Bare (w z : Text) : Prop := ∀ l s, z = l ++ (w ++ s) → Alone l s → ¬ IsListed l

theorem HoldsWords.of_succ (h : HoldsWords w (n + 1) v) : HoldsWords w n v := by
  induction n generalizing v with
  | zero => trivial
  | succ n ih =>
    obtain ⟨l, r, rfl, ha, hl, hr⟩ := h
    exact ⟨l, r, rfl, ha, hl, ih hr⟩

section

variable (hw : IsClassWord w)

include hw

/-- Before a text without the word every word counts that counts behind it, if no list ends or
begins. -/
theorem holdsWords_append_iff (hx : IsClassWord x) (hv : ∀ z ∈ v.head?, isWord z = false)
    (hz : ∀ y ∈ z.getLast?, isWord y = false) (hbare : Bare w z) :
    HoldsWords w (n + 1) (z ++ (x ++ v)) ↔ IsListed z ∧ HoldsWords w (n + 1) (x ++ v) := by
  constructor
  · rintro ⟨l, r, he, ha, hl, hr⟩
    rcases hw.alone_cases hz he ha with ⟨s, hs, ha⟩ | ⟨k, rfl, hk⟩
    · exact (hbare l s hs ha hl).elim
    · exact ⟨hl.of_append.1, k, r, hk, ha.of_append, hl.of_append.2, hr⟩
  · rintro ⟨hlz, l, r, he, ha, hl, hr⟩
    refine ⟨z ++ l, r, by rw [he, List.append_assoc], ha.append hz, ?_, hr⟩
    rcases hw.word_cases hx hv he ha with ⟨rfl, -⟩ | ⟨k, rfl, -⟩
    · rwa [List.append_nil]
    · exact hlz.append hx.toIsDivider hl

/-- Another word does not count. -/
theorem holdsWords_other_iff (hx : IsClassWord x) (hv : ∀ z ∈ v.head?, isWord z = false)
    (hne : x ≠ w) : HoldsWords w (n + 1) (x ++ v) ↔ HoldsWords w (n + 1) v := by
  constructor
  · rintro ⟨l, r, he, ha, hl, hr⟩
    rcases hw.word_cases hx hv he ha with ⟨-, h, -⟩ | ⟨k, rfl, hk⟩
    · exact absurd h hne
    · exact ⟨k, r, hk, ha.of_append, hl.of_append.2, hr⟩
  · rintro ⟨l, r, rfl, ha, hl, hr⟩
    have hnil : l ≠ [] := by
      rintro rfl
      obtain ⟨y, hy, -⟩ := hw.head
      have hword := hw.word y (List.mem_of_head? hy)
      rw [hv y (by rw [List.nil_append, List.head?_append, Option.mem_def.mp hy]; rfl)] at hword
      cases hword
    refine ⟨x ++ l, r, by simp, ⟨fun y hy => ?_, ha.after⟩, hl.word_append hx, hr⟩
    rw [List.getLast?_append_of_ne_nil x hnil] at hy
    exact ha.before y hy

/-- The word counts as one. -/
theorem holdsWords_same_iff (hv : ∀ z ∈ v.head?, isWord z = false) :
    HoldsWords w (n + 1) (w ++ v) ↔ HoldsWords w n v := by
  constructor
  · rintro ⟨l, r, he, ha, hl, hr⟩
    rcases hw.word_cases hw hv he ha with ⟨-, -, rfl⟩ | ⟨k, rfl, hk⟩
    · exact hr
    · exact HoldsWords.of_succ ⟨k, r, hk, ha.of_append, hl.of_append.2, hr⟩
  · intro h
    exact ⟨[], v, rfl, ⟨nofun, hv⟩, isListed_nil, h⟩

/-- What stands behind the beginning of another list does not count. -/
theorem HoldsWords.before_opener (ho : IsOpener o) (h : HoldsWords w n (a ++ (o ++ v))) (y : Text) :
    HoldsWords w n (a ++ (o ++ y)) := by
  induction n generalizing a with
  | zero => trivial
  | succ n ih =>
    obtain ⟨l, r, he, ha, hl, hr⟩ := h
    rcases hw.opener_cases ho he.symm with ⟨s, rfl, -⟩ | ⟨s, rfl, rfl⟩
    · exact (hl.opener o ho ⟨a, s, by simp⟩).elim
    · have hhead : (s ++ (o ++ y)).head? = (s ++ (o ++ v)).head? := by
        obtain ⟨q, rfl, -⟩ := ho.exists_cons
        cases s <;> rfl
      exact ⟨l, s ++ (o ++ y), by simp, ⟨ha.before, by rw [hhead]; exact ha.after⟩, hl, ih hr⟩

end

/-! ### Pieces of the pattern -/

/-- What a class list begins with, as a pattern. -/
def classOpening : Pattern :=
  all [Pattern.word "className", blanks, char '=', blanks,
    .one fun c => isClassQuote c || c == '{']

/-- The word, standing by itself. -/
def wordAlone (w : Text) : Pattern := all [.wordEdge, text w, .wordEdge]

theorem fits_classOpening : classOpening.Fits u o v ↔ IsOpener o := by
  constructor
  · rintro ⟨_, _, rfl, hword, b, _, rfl, hb, _, _, rfl, ⟨e, rfl, he⟩, c, _, rfl, hc, q, rfl, hq⟩
    obtain rfl := fits_text.mp hword
    obtain rfl : e = '=' := by simpa using he
    exact ⟨b, c, q, rfl, hb, hc, hq⟩
  · rintro ⟨b, c, q, rfl, hb, hc, hq⟩
    exact ⟨_, _, rfl, fits_text.mpr rfl, b, _, rfl, hb, ['='], _, rfl, ⟨'=', rfl, rfl⟩, c, _, rfl,
      hc, q, rfl, hq⟩

theorem fits_wordAlone (hw : IsClassWord w) : (wordAlone w).Fits u x v ↔ x = w ∧ Alone u v := by
  have hhead (r : Text) : (w ++ r).head?.any isWord = true := by
    obtain ⟨y, hy, -⟩ := hw.head
    rw [List.head?_append, Option.mem_def.mp hy]
    exact hw.word y (List.mem_of_head? hy)
  have hlast (l : Text) : (l ++ w).getLast?.any isWord = true := by
    rw [List.getLast?_append_of_ne_nil l hw.ne_nil, List.getLast?_eq_some_getLast hw.ne_nil]
    exact hw.word _ (List.getLast_mem hw.ne_nil)
  constructor
  · rintro ⟨_, _, rfl, ⟨rfl, hbefore⟩, _, _, rfl, hword, rfl, hafter⟩
    obtain rfl := fits_text.mp hword
    rw [List.append_nil, hhead, ne_eq, Bool.not_eq_true] at hbefore
    rw [List.append_nil, hlast, ne_comm, ne_eq, Bool.not_eq_true] at hafter
    exact ⟨by simp, any_eq_false_iff.mp hbefore, any_eq_false_iff.mp hafter⟩
  · rintro ⟨rfl, hbefore, hafter⟩
    refine ⟨[], _, rfl, ⟨rfl, ?_⟩, x, [], by simp, fits_text.mpr rfl, rfl, ?_⟩
    · rw [hhead, any_eq_false_iff.mpr hbefore]
      decide
    · rw [hlast, any_eq_false_iff.mpr hafter]
      decide

theorem isExplicit_wordAlone : (wordAlone w).isExplicit = true := by
  simp [wordAlone, all, isExplicit, isExplicit_text]

theorem captures_of_wordAlone {s t : Progress} (h : t ∈ (wordAlone w).ends s) :
    t.captures = s.captures := by
  obtain ⟨u₁, h₁, h⟩ := mem_ends_seq.mp h
  obtain ⟨u₂, h₂, h₃⟩ := mem_ends_seq.mp h
  rw [(mem_ends_wordEdge h₃).1, (mem_ends_text h₂).2, (mem_ends_wordEdge h₁).1]

theorem isExplicit_classWord : (classWord w).isExplicit = true := by
  simp [classWord, all, isExplicit, isExplicit_text, Pattern.word, blanks, many, char, few]

/-- The pieces of the pattern are the lists up to a word in them. -/
theorem startsAt_classWord (hw : IsClassWord w) : (classWord w).StartsAt u v ↔
    ∃ o g r, v = o ++ (g ++ (w ++ r)) ∧ IsOpener o ∧ (∀ x ∈ g, isClassQuote x = false) ∧
      Alone g r := by
  rw [startsAt_iff isExplicit_classWord]
  constructor
  · rintro ⟨_, r, rfl, _, x, rfl, ⟨_, _, rfl, hword, b, _, rfl, hb, _, _, rfl, ⟨e, rfl, he⟩, c, _,
      rfl, hc, _, g, rfl, ⟨q, rfl, hq⟩, hg⟩, hend⟩
    obtain rfl := fits_text.mp hword
    obtain rfl : e = '=' := by simpa using he
    have ho : IsOpener ("className".toList ++ (b ++ '=' :: (c ++ [q]))) :=
      ⟨b, c, q, rfl, hb, hc, hq⟩
    obtain ⟨rfl, ha⟩ := (fits_wordAlone hw).mp hend
    have hlisted : ∀ x ∈ g, (!isClassQuote x) = true := hg
    refine ⟨_, g, r, by simp, ho, by simpa using hlisted, (ho.alone_iff (u := u)).mp ?_⟩
    simpa using ha
  · rintro ⟨o, g, r, rfl, ho, hg, ha⟩
    refine ⟨o ++ (g ++ w), r, by simp, o ++ g, w, by simp, ?_, ?_⟩
    · obtain ⟨b, c, q, rfl, hb, hc, hq⟩ := ho
      have hlisted : ∀ x ∈ g, (!isClassQuote x) = true := by simpa using hg
      exact ⟨"className".toList, b ++ '=' :: (c ++ q :: g), by simp, fits_text.mpr rfl, b, _, rfl,
        hb, ['='], c ++ q :: g, rfl, ⟨'=', rfl, rfl⟩, c, q :: g, rfl, hc, [q], g, rfl,
        ⟨q, rfl, hq⟩, hlisted⟩
    · exact (fits_wordAlone hw).mpr ⟨rfl, ho.alone_iff.mpr ha⟩

/-- What is found by going on as little as possible is not found any nearer. -/
theorem exists_of_nearestRun? {α : Type} {q : Char → Bool} {f : Cursor → Option α} {e : α}
    {i : Nat} (h : Cursor.nearestRun? q f i b t = some e) :
    ∃ g r, t = g ++ r ∧ (∀ x ∈ g, q x = true) ∧ f ⟨i + g.length, g.reverse ++ b, r⟩ = some e ∧
      ∀ l d, g = l ++ d → d ≠ [] → f ⟨i + l.length, l.reverse ++ b, d ++ r⟩ = none := by
  induction t generalizing i b with
  | nil => exact ⟨[], [], rfl, nofun, h, fun l d hd hne => by simp_all⟩
  | cons x t ih =>
    rw [Cursor.nearestRun?] at h
    split at h
    · next hfound =>
      exact ⟨[], x :: t, rfl, nofun, hfound.trans h, fun l d hd hne => by simp_all⟩
    · next hnone =>
      split at h
      · next hx =>
        obtain ⟨g, r, rfl, hg, he, hmin⟩ := ih h
        refine ⟨x :: g, r, rfl, List.forall_mem_cons.mpr ⟨hx, hg⟩, ?_, ?_⟩
        · simpa [Nat.add_right_comm, ← Nat.add_assoc] using he
        · rintro (_ | ⟨y, l⟩) d hd hne
          · subst hd
            exact hnone
          · obtain ⟨rfl, rfl⟩ := List.cons.inj hd
            simpa [Nat.add_right_comm, ← Nat.add_assoc] using hmin l d rfl hne
      · cases h

/-- What fits at a place is found there. -/
theorem firstEnd?_ne_none_of_fits {p : Pattern} (h : p.Fits u w v) (c : List (Nat × Capture)) :
    p.firstEnd? some ⟨.amid u (w ++ v), c⟩ ≠ none := by
  obtain ⟨e, he, -⟩ := leads_of_fits h u.length c
  rw [firstEnd?_some_eq_head?, ne_eq, List.head?_eq_none_iff]
  exact List.ne_nil_of_mem he

/-- The pattern prefers the first word. -/
theorem takes_classWord (hw : IsClassWord w) (h : (classWord w).Takes u m v) :
    ∃ o g, m.group 1 = o ++ g ∧ m.text = o ++ (g ++ w) ∧ IsOpener o ∧
      (∀ x ∈ g, isClassQuote x = false) ∧ Alone g v ∧ ∀ l s, g = l ++ (w ++ s) → ¬ Alone l s := by
  obtain ⟨s, hs, hm⟩ := Option.map_eq_some_iff.mp h
  have hrun : classOpening.firstEnd? (fun t => Cursor.nearestRun? (fun c => !isClassQuote c)
      (fun c => (wordAlone w).firstEnd? some ((t.move c).remember 1 (Cursor.amid u (m.text ++ v))))
      t.cursor.pos t.cursor.before t.cursor.after) ⟨.amid u (m.text ++ v), []⟩ = some s := hs
  rw [firstEnd?_eq] at hrun
  obtain ⟨t, ht, hrun⟩ := List.exists_of_findSome?_eq_some hrun
  obtain ⟨g, r, hafter, hg, hend, hmin⟩ := exists_of_nearestRun? hrun
  obtain ⟨o, ho, hfits⟩ := exists_fits_of_mem_ends rfl ht
  rw [fits_classOpening] at hfits
  -- what the word would have been found at
  have hplace (l d : Text) : (⟨t.cursor.pos + l.length, l.reverse ++ t.cursor.before, d⟩ : Cursor) =
      .amid (u ++ (o ++ l)) d := by
    rw [ho.eq_mk]
    simp [Cursor.amid, Nat.add_assoc]
  rw [firstEnd?_some_eq_head?] at hend
  have hmem := List.mem_of_head? hend
  obtain ⟨x, hx, hf⟩ := exists_fits_of_mem_ends isExplicit_wordAlone hmem
  have ho' : t.cursor.Over g ⟨t.cursor.pos + g.length, g.reverse ++ t.cursor.before, r⟩ :=
    ⟨hafter, rfl, rfl⟩
  obtain rfl : m.last = s := by rw [← hm]
  have hlast := h.after
  simp only [Progress.remember, Progress.move, hplace, Cursor.amid, List.reverse_reverse, hlast]
    at hf
  obtain ⟨rfl, ha⟩ := (fits_wordAlone hw).mp hf
  rw [hfits.alone_iff] at ha
  have htext : m.text = o ++ (g ++ x) := by
    rw [Match.text, h.first]
    exact (ho.trans (ho'.trans hx)).between
  refine ⟨o, g, ?_, htext, hfits, by simpa using hg, ha, fun l d hd hl => ?_⟩
  · rw [Match.group, Progress.group?, captures_of_wordAlone hmem]
    exact (ho.trans ho').between
  · -- the word would have been found there
    have hne : d ≠ [] := by
      rintro rfl
      rw [List.append_nil] at hd
      subst hd
      exact hw.not_before (l := x) (r := []) (by simp) hw.ne_nil ha.before
    have hnone := hmin l (x ++ d) hd (by simp [hw.ne_nil])
    have hfits' : (wordAlone x).Fits (u ++ (o ++ l)) x (d ++ r) := by
      refine (fits_wordAlone hw).mpr ⟨rfl, hfits.alone_iff.mpr ⟨hl.before, ?_⟩⟩
      rw [List.head?_append_of_ne_nil d hne]
      exact hl.after
    rw [hplace, List.append_assoc] at hnone
    exact firstEnd?_ne_none_of_fits hfits' _ hnone

/-! ### A pass -/

/-- What the word is replaced by: two other words, which take more room. -/
structure Splits (bad good : Text) : Prop where
  isBad : IsClassWord bad
  longer : bad.length < good.length
  isGood : ∃ x y, good = x ++ ' ' :: y ∧ IsClassWord x ∧ IsClassWord y ∧ x ≠ bad ∧ y ≠ bad

theorem isListed_space : IsListed [' '] where
  quote := by simp [isClassQuote]
  opener o ho hi := by
    obtain ⟨r, rfl, -⟩ := ho.exists_cons
    exact absurd (hi.subset List.mem_cons_self) (by decide)

theorem bare_space (hw : IsClassWord w) : Bare w [' '] := by
  rintro l s he - -
  obtain ⟨x, hx, -⟩ := hw.head
  have hmem := List.mem_of_head? hx
  have : x ∈ [' '] := he ▸ List.mem_append_right l (List.mem_append_left s hmem)
  obtain rfl := List.mem_singleton.mp this
  exact absurd (hw.word _ hmem) (by decide)

/-- What the word is replaced by does not count. -/
theorem Splits.holdsWords_good_iff (h : Splits bad good) (hv : ∀ z ∈ v.head?, isWord z = false) :
    HoldsWords bad (n + 1) (good ++ v) ↔ HoldsWords bad (n + 1) v := by
  obtain ⟨x, y, rfl, hx, hy, hxb, hyb⟩ := h.isGood
  have hafter : ∀ z ∈ (' ' :: (y ++ v)).head?, isWord z = false := by
    rintro _ ⟨⟩
    decide
  have hbefore : ∀ z ∈ [' '].getLast?, isWord z = false := by
    rintro _ ⟨⟩
    decide
  rw [List.append_assoc, List.cons_append, holdsWords_other_iff h.isBad hx hafter hxb,
    ← List.singleton_append, holdsWords_append_iff h.isBad hy hv hbefore (bare_space h.isBad),
    holdsWords_other_iff h.isBad hy hv hyb]
  exact and_iff_right isListed_space

theorem Splits.hasList_good_iff (h : Splits bad good) :
    ∃ x y, good = x ++ ' ' :: y ∧ IsClassWord x ∧
      ∀ {n v}, HasList bad n (' ' :: (y ++ v)) ↔ HasList bad n v := by
  obtain ⟨x, y, rfl, hx, hy, -⟩ := h.isGood
  refine ⟨x, y, rfl, hx, fun {n v} => ⟨?_, ?_⟩⟩
  · rintro ⟨u, o, r, he, ho, hr⟩
    rcases hy.opener_cases (z := [' ']) ho he with ⟨s, hs, -⟩ | ⟨s, -, hs⟩
    · obtain ⟨q, rfl, -⟩ := ho.exists_cons
      have hmem : 'c' ∈ [' '] := hs ▸ by simp
      exact absurd hmem (by decide)
    · exact ⟨s, o, r, hs, ho, hr⟩
  · rintro ⟨u, o, r, rfl, ho, hr⟩
    exact ⟨' ' :: (y ++ u), o, r, by simp, ho, hr⟩

/-- The lists that begin before a word, if it is the first word of each of them, are the one that it
belongs to. -/
theorem hasList_append_iff (hw : IsClassWord w) (hx : IsClassWord x)
    (hv : ∀ y ∈ v.head?, isWord y = false) (hz : ∀ y ∈ z.getLast?, isWord y = false)
    (hbare : ∀ u o s, z = u ++ (o ++ s) → IsOpener o → Bare w s)
    (hlast : ∃ u o s, z = u ++ (o ++ s) ∧ IsOpener o ∧ IsListed s) :
    HasList w (n + 1) (z ++ (x ++ v)) ↔ HoldsWords w (n + 1) (x ++ v) ∨ HasList w (n + 1) v := by
  have hedge {u s : Text} (he : z = u ++ s) : ∀ y ∈ s.getLast?, isWord y = false := fun y hy => by
    refine hz y ?_
    rw [he, List.getLast?_append, Option.mem_def.mp hy]
    rfl
  constructor
  · rintro ⟨u, o, r, he, ho, hr⟩
    rcases hx.opener_cases ho he with ⟨s, hs, rfl⟩ | ⟨s, -, hs⟩
    · have hsuffix : z = (u ++ o) ++ s := by rw [hs, List.append_assoc]
      exact .inl ((holdsWords_append_iff hw hx hv (hedge hsuffix) (hbare u o s hs ho)).mp hr).2
    · exact .inr ⟨s, o, r, hs, ho, hr⟩
  · rintro (h | ⟨u, o, r, rfl, ho, hr⟩)
    · obtain ⟨u, o, s, hs, ho, hlisted⟩ := hlast
      have hsuffix : z = (u ++ o) ++ s := by rw [hs, List.append_assoc]
      refine ⟨u, o, s ++ (x ++ v), by rw [hs]; simp, ho, ?_⟩
      exact (holdsWords_append_iff hw hx hv (hedge hsuffix) (hbare u o s hs ho)).mpr ⟨hlisted, h⟩
    · exact ⟨z ++ (x ++ u), o, r, by simp, ho, hr⟩

/-- A list with the word is where a piece of the pattern begins. -/
theorem HasList.exists_startsAt (hw : IsClassWord w) (h : HasList w (n + 1) v) (u : Text) :
    ∃ a b, v = a ++ b ∧ (classWord w).StartsAt (u ++ a) b := by
  obtain ⟨a, o, _, rfl, ho, l, r, rfl, ha, hl, -⟩ := h
  exact ⟨a, _, rfl, (startsAt_classWord hw).mpr ⟨o, l, r, rfl, ho, hl.quote, ha⟩⟩

theorem neverEmpty_classWord : (classWord bad).NeverEmpty := by
  intro m hm
  obtain ⟨w, ho, x, y, rfl, hfits, -⟩ := exists_fits_of_mem_ends isExplicit_classWord hm
  have htext : m.text = x ++ y := ho.between
  obtain ⟨z, r, rfl, hword, -⟩ := hfits
  obtain rfl := fits_text.mp hword
  rw [htext]
  exact List.cons_ne_nil _ _

theorem occursIn_classWord_iff (hw : IsClassWord w) :
    (classWord w).occursIn t = true ↔ HasList w 1 t := by
  rw [occursIn_iff_startsAt]
  constructor
  · rintro ⟨u, v, rfl, hs⟩
    obtain ⟨o, g, r, rfl, ho, hg, ha⟩ := (startsAt_classWord hw).mp hs
    obtain ⟨x, l, s, he, hl, hlisted⟩ := ho.exists_last g.length g le_rfl hg
    have hs : Alone s r := by
      have := (ho.alone_iff (u := [])).mpr ha
      rw [List.nil_append, he, ← List.append_assoc] at this
      exact this.of_append
    refine ⟨u ++ x, l, s ++ (w ++ r), ?_, hl, s, r, rfl, hs, hlisted, trivial⟩
    have := congrArg (u ++ · ++ (w ++ r)) he
    simpa using this
  · intro h
    obtain ⟨a, b, rfl, hs⟩ := h.exists_startsAt hw []
    exact ⟨a, b, rfl, hs⟩

/-- A list that begins with the opening of a piece or behind it does not have the word before that
of the piece. -/
theorem bare_of_clean (ho : IsOpener o) (hclean : ∀ l s, g = l ++ (w ++ s) → ¬ Alone l s)
    (he : o ++ g = x ++ (l ++ s)) (hl : IsOpener l) : Bare w s := by
  rintro r d rfl halone -
  cases x with
  | nil =>
    obtain ⟨-, rfl⟩ := ho.unique hl he
    exact hclean r d rfl halone
  | cons z x =>
    obtain ⟨q, hq, hnot⟩ := ho.exists_cons
    obtain ⟨q', hq', -⟩ := hl.exists_cons
    rw [hq] at he
    have htail : q ++ g = x ++ (l ++ (r ++ (w ++ d))) := (List.cons.inj he).2
    have hsplit : x ++ 'c' :: (q' ++ (r ++ (w ++ d))) = q ++ g := by
      rw [htail, hq']
      rfl
    obtain ⟨k, -, rfl⟩ := Text.exists_of_append_cons_eq hsplit hnot
    refine hclean (k ++ (l ++ r)) d ?_ (hl.alone_iff.mpr halone)
    rw [hq']
    simp

/-- Before the word of the first piece no list has the word. -/
theorem bare_of_gap (hw : IsClassWord w)
    (hgap : ∀ k b, a = k ++ b → b ≠ [] →
      ¬ (classWord w).StartsAt (u ++ k) (b ++ (o ++ (g ++ w) ++ v)))
    (ho : IsOpener o) (ha : Alone g v) (hclean : ∀ l s, g = l ++ (w ++ s) → ¬ Alone l s)
    (he : a ++ (o ++ g) = x ++ (l ++ s)) (hl : IsOpener l) : Bare w s := by
  rcases List.append_eq_append_iff.mp he with ⟨c, rfl, hc⟩ | ⟨c, rfl, hc⟩
  · exact bare_of_clean ho hclean hc hl
  by_cases hne : c = []
  · subst hne
    exact bare_of_clean (x := []) ho hclean hc.symm hl
  · -- a list that begins before it would have been found
    rintro r d rfl halone hlisted
    have hd : d ≠ [] := by
      rintro rfl
      have hlast : Alone ((l ++ r) ++ w) v := by
        have hsame : (l ++ r) ++ w = c ++ (o ++ g) := by simpa using hc
        rw [hsame]
        exact ho.alone_iff.mpr ha
      exact hw.not_before (r := []) (by simp) hw.ne_nil hlast.before
    have hwhole : c ++ (o ++ (g ++ w) ++ v) = l ++ (r ++ (w ++ (d ++ (w ++ v)))) := by
      have := congrArg (· ++ (w ++ v)) hc.symm
      simpa using this
    refine hgap x c rfl hne ((startsAt_classWord hw).mpr ⟨l, r, d ++ (w ++ v), hwhole, hl,
      hlisted.quote, halone.before, ?_⟩)
    rw [List.head?_append_of_ne_nil d hd]
    exact halone.after

/-! ### All passes -/

section

variable (h : Splits bad good)

include h

/-- A pass does not change how many words a list has whose beginning stands before. -/
theorem holdsWords_replaced_iff
    (hr : Replaced (classWord bad) (fun m => m.group 1 ++ good) u v v') :
    HoldsWords bad n v' ↔ HoldsWords bad n v := by
  cases hr with
  | rest => exact Iff.rfl
  | piece hgap htakes hrest =>
    obtain ⟨o, g, hgroup, htext, ho, -⟩ := takes_classWord h.isBad htakes
    rw [hgroup, htext, List.append_assoc o, List.append_assoc o, List.append_assoc o]
    exact ⟨fun hn => hn.before_opener h.isBad ho _, fun hn => hn.before_opener h.isBad ho _⟩

/-- A pass leaves the first character. -/
theorem head?_of_replaced
    (hr : Replaced (classWord bad) (fun m => m.group 1 ++ good) u v v') : v'.head? = v.head? := by
  cases hr with
  | rest => rfl
  | @piece _ a v v' m hgap htakes hrest =>
    obtain ⟨o, g, hgroup, htext, ho, -⟩ := takes_classWord h.isBad htakes
    obtain ⟨q, rfl, -⟩ := ho.exists_cons
    rw [hgroup, htext]
    cases a <;> rfl

/-- A pass mends one word in each list. -/
theorem hasList_replaced_iff
    (hr : Replaced (classWord bad) (fun m => m.group 1 ++ good) u v v') :
    HasList bad (n + 1) v' ↔ HasList bad (n + 2) v := by
  induction hr with
  | @rest u v hrest =>
    have hnone (k : Nat) : ¬ HasList bad (k + 1) v := fun hlist => by
      obtain ⟨a, b, he, hs⟩ := hlist.exists_startsAt h.isBad u
      exact hrest a b he hs
    exact iff_of_false (hnone n) (hnone (n + 1))
  | @piece u a v v' m hgap htakes hrest ih =>
    obtain ⟨o, g, hgroup, htext, ho, hg, ha, hclean⟩ := takes_classWord h.isBad htakes
    obtain ⟨x, y, hgood, hx, hskip⟩ := h.hasList_good_iff
    have hv' : ∀ z ∈ v'.head?, isWord z = false := by
      rw [head?_of_replaced h hrest]
      exact ha.after
    have hbefore : ∀ z ∈ (a ++ (o ++ g)).getLast?, isWord z = false :=
      (ho.alone_iff.mpr ha).before
    have hbare (x l s : Text) (he : a ++ (o ++ g) = x ++ (l ++ s)) (hl : IsOpener l) : Bare bad s :=
      bare_of_gap h.isBad (by rwa [htext] at hgap) ho ha hclean he hl
    have hlast : ∃ x l s, a ++ (o ++ g) = x ++ (l ++ s) ∧ IsOpener l ∧ IsListed s := by
      obtain ⟨x, l, s, he, hl, hs⟩ := ho.exists_last g.length g le_rfl hg
      exact ⟨a ++ x, l, s, by rw [he, List.append_assoc], hl, hs⟩
    have hold : a ++ (m.text ++ v) = (a ++ (o ++ g)) ++ (bad ++ v) := by simp [htext]
    have hnew : a ++ (m.group 1 ++ good ++ v') = (a ++ (o ++ g)) ++ (x ++ (' ' :: (y ++ v'))) := by
      simp [hgroup, hgood]
    have hspace : ∀ z ∈ (' ' :: (y ++ v')).head?, isWord z = false := by
      rintro _ ⟨⟩
      decide
    have hword : x ++ ' ' :: (y ++ v') = good ++ v' := by simp [hgood]
    rw [hold, hnew, hasList_append_iff h.isBad h.isBad ha.after hbefore hbare hlast,
      holdsWords_same_iff h.isBad ha.after,
      hasList_append_iff h.isBad hx hspace hbefore hbare hlast, hskip, ih, hword,
      h.holdsWords_good_iff hv', holdsWords_replaced_iff h hrest]

/-- After `n` passes nothing is left to mend if and only if no list had more than `n` of the
words. -/
theorem occursIn_mendClass_iff (n : Nat) (t : Text) :
    (classWord bad).occursIn (mendClass bad good n t) = false ↔ ¬ HasList bad (n + 1) t := by
  induction n generalizing t with
  | zero => rw [mendClass, ← occursIn_classWord_iff h.isBad, Bool.not_eq_true]
  | succ n ih =>
    rw [mendClass]
    split
    · next hsame =>
      have hnone : (classWord bad).occursIn t = false := by
        refine occursIn_of_replaceAll_eq_self neverEmpty_classWord (fun htakes => ?_) hsame
        obtain ⟨o, g, hgroup, htext, -⟩ := takes_classWord h.isBad htakes
        have := h.longer
        simp only [hgroup, htext, List.length_append]
        omega
      refine iff_of_true hnone fun hlist => ?_
      obtain ⟨a, b, he, hs⟩ := hlist.exists_startsAt h.isBad []
      rw [occursIn_iff_startsAt.mpr ⟨a, b, he, hs⟩] at hnone
      cases hnone
    · rw [ih, hasList_replaced_iff h (replaced_replaceAll neverEmpty_classWord _ t)]

end

end SnippetGate.Signature
