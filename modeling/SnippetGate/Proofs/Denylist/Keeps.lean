import SnippetGate.Proofs.Denylist.Swap
import SnippetGate.Proofs.Text.Basic
import SnippetGate.Proofs.Text.Replace

/-!
# What brings no denied code about

Leaving out the ends of a text, trimming it, writing its newlines in one way, and replacing pieces
of it one after the other.
-/

namespace SnippetGate

variable {P : Text → Text → Prop} {t u v : Text}

/-! ### The ends of a text -/

/-- Denied code stays denied behind a text that allows it. -/
theorem DeniedFor.append_left (h : DeniedFor P t)
    (hu : ∀ z ∈ u.getLast?, Sign.afterMember z = false) : DeniedFor P (u ++ t) := by
  rcases h with ⟨a, m, b, ⟨he, hm, hb⟩, hp⟩ | ⟨s, hs, a, b, rfl, ha, hb⟩
  · exact .inl ⟨u ++ a, m, b, ⟨by rw [he, List.append_assoc], hm, hb⟩, hp⟩
  · refine .inr ⟨s, hs, u ++ a, b, by rw [List.append_assoc], fun z hz => ?_, hb⟩
    by_cases hne : a = []
    · subst hne
      rw [List.append_nil] at hz
      exact apart_eq_false hs (hu z hz)
    · rw [List.getLast?_append_of_ne_nil u hne] at hz
      exact ha z hz

/-- A text without denied words in front of another brings no denied code about. -/
theorem DeniedFor.of_append_left (hu : Wordless u) (hp : Parts u t) (h : DeniedFor P (u ++ t)) :
    DeniedFor P t := by
  rcases h with ⟨a, m, b, ⟨he, hm, hb⟩, hP⟩ | ⟨s, hs, a, b, he, ha, r, rfl, hr⟩
  · rcases hp.cases (w := importWord) (by decide) he with ⟨b₁, rfl, -⟩ | ⟨a₂, rfl, rfl⟩
    · exact absurd ⟨a, b₁, List.append_assoc ..⟩ (hu importWord (by decide))
    · exact .inl ⟨a₂, m, b, ⟨rfl, hm, hb⟩, hP⟩
  · rcases hp.cases (mem_deniedWords hs) he with ⟨b₁, rfl, -⟩ | ⟨a₂, rfl, rfl⟩
    · exact absurd ⟨a, b₁, List.append_assoc ..⟩ (hu s.word (mem_deniedWords hs))
    · refine .inr ⟨s, hs, a₂, _, rfl, fun z hz => ha z ?_, r, rfl, hr⟩
      rw [List.getLast?_append, Option.mem_def.mp hz]
      exact rfl

/-- Whether some denied word can begin like a text. -/
def beginsDenied (s : Text) : Bool := deniedWords.any (agree s)

/-- Behind any text, denied code stays denied if none begins right there. -/
theorem DeniedFor.append_left_of_agree {s : Text} (h : DeniedFor P (s ++ t))
    (hs : beginsDenied s = false) : DeniedFor P (u ++ (s ++ t)) := by
  have hne {a b w : Text} (hw : w ∈ deniedWords) (he : s ++ t = a ++ (w ++ b)) : a ≠ [] := by
    rintro rfl
    exact List.any_eq_false.mp hs w hw (agree_of_append he)
  rcases h with ⟨a, m, b, ⟨he, hm, hb⟩, hp⟩ | ⟨s', hs', a, b, he, ha, r, rfl, hr⟩
  · exact .inl ⟨u ++ a, m, b, ⟨by rw [he, List.append_assoc], hm, hb⟩, hp⟩
  · refine .inr ⟨s', hs', u ++ a, _, by rw [he, List.append_assoc], ?_, r, rfl, hr⟩
    rwa [List.getLast?_append_of_ne_nil u (hne (mem_deniedWords hs') he)]

/-- A condition that says nothing of what follows an import. -/
def Forgets (P : Text → Text → Prop) : Prop := ∀ m b b', P m b → P m b'

/-- Denied code stays denied before blanks. -/
theorem DeniedFor.append_right (h : DeniedFor P t) (hP : Forgets P) (hu : Sequel.Closed u) :
    DeniedFor P (t ++ u) := by
  have hswap : Swap t u [] [] :=
    { left := parts_nil_right t
      right := parts_nil_right []
      sequel := fun s hs => by
        rw [List.append_nil]
        exact Sequel.closed_nil.holds hu hs
      fresh := .inl nofun }
  refine hswap.deniedFor_of_end (by decide) hP ?_
  rwa [List.append_nil]

theorem DeniedFor.of_trimStart (h : DeniedFor P (Text.trimStart t)) : DeniedFor P t := by
  rw [← List.takeWhile_append_dropWhile (p := isBlank) (l := t)]
  exact h.append_left fun z hz => Sign.afterMember_of_isBlank
    (List.all_eq_true.mp List.all_takeWhile z (List.mem_of_getLast? hz))

theorem DeniedFor.of_trimEnd (h : DeniedFor P (Text.trimEnd t)) (hP : Forgets P) :
    DeniedFor P t := by
  have he : t = Text.trimEnd t ++ (t.reverse.takeWhile isBlank).reverse := by
    rw [Text.trimEnd, ← List.reverse_append, List.takeWhile_append_dropWhile, List.reverse_reverse]
  rw [he]
  refine h.append_right hP (Sequel.closed_blanks fun z hz => ?_)
  exact List.all_eq_true.mp List.all_takeWhile z (List.mem_reverse.mp hz)

/-- Trimming brings no denied code about. -/
theorem DeniedFor.of_trim (h : DeniedFor P (Text.trim t)) (hP : Forgets P) : DeniedFor P t :=
  of_trimStart (of_trimEnd h hP)

/-- A text that ends in wordless characters behind a decisive one has no more denied code than with
anything else behind that one. -/
theorem DeniedFor.of_tail {z : Char} {l x y : Text} (hP : Forgets P)
    (hz : Sequel.isDecisive z = true) (hs : isSignChar z = false) (hy : Wordless (z :: y))
    (h : DeniedFor P (l ++ z :: y)) : DeniedFor P (l ++ z :: x) := by
  have hswap : Swap l (z :: x) (z :: y) [] :=
    { left := parts_of_head fun c hc => Option.some.inj hc ▸ hs
      right := parts_nil_right _
      sequel := fun s => Sequel.holds_of_isDecisive hz
      fresh := .inl nofun }
  exact hswap.deniedFor_of_end hy hP h

/-! ### Newlines in one spelling -/

namespace Text

/-- A division of the result comes from a division of the text. -/
theorem exists_of_universalNewlines_eq (h : universalNewlines t = u ++ v) :
    ∃ a b, t = a ++ b ∧ universalNewlines a = u ∧ universalNewlines b = v := by
  induction t using universalNewlines.induct generalizing u with
  | case1 =>
    obtain ⟨rfl, rfl⟩ := List.append_eq_nil_iff.mp h.symm
    exact ⟨[], [], rfl, rfl, rfl⟩
  | case2 r ih =>
    cases u with
    | nil => exact ⟨[], _, rfl, rfl, h⟩
    | cons c u =>
      rw [universalNewlines] at h
      obtain ⟨rfl, ht⟩ := List.cons.inj h
      obtain ⟨a, b, rfl, rfl, rfl⟩ := ih ht
      exact ⟨'\r' :: '\n' :: a, b, rfl, rfl, rfl⟩
  | case3 x r hx ih =>
    cases u with
    | nil => exact ⟨[], _, rfl, rfl, h⟩
    | cons c u =>
      rw [universalNewlines_cons hx] at h
      obtain ⟨rfl, ht⟩ := List.cons.inj h
      obtain ⟨a, b, rfl, rfl, rfl⟩ := ih ht
      refine ⟨x :: a, b, rfl, universalNewlines_cons fun q hr ha => ?_, rfl⟩
      exact hx (q ++ b) hr (by rw [ha, List.cons_append])

/-- A character of the text is the end of a line or still there. -/
theorem mem_universalNewlines {x : Char} (h : x ∈ t) (hr : x ≠ '\r') (hn : x ≠ '\n') :
    x ∈ universalNewlines t := by
  induction t using universalNewlines.induct with
  | case1 => cases h
  | case2 r ih => simp_all [universalNewlines]
  | case3 y r hy ih =>
    rw [universalNewlines_cons hy]
    rcases List.mem_cons.mp h with rfl | h
    · simp [hr]
    · exact List.mem_cons_of_mem _ (ih h)

/-- A result without a newline is the text itself. -/
theorem eq_of_universalNewlines (h : '\n' ∉ universalNewlines t) : universalNewlines t = t := by
  induction t using universalNewlines.induct with
  | case1 => rfl
  | case2 r ih => simp [universalNewlines] at h
  | case3 x r hx ih =>
    rw [universalNewlines_cons hx] at h ⊢
    rw [List.mem_cons, not_or] at h
    rw [ih h.2, if_neg]
    rintro rfl
    exact h.1 rfl

end Text

namespace Sequel

theorem getElem?_trustedModule_ne {n : Nat} {x y : Char} (hx : isBlank x = true)
    (hy : trustedModule[n]? = some y) : x ≠ y := by
  rintro rfl
  have := List.mem_of_getElem? hy
  simp_all [(by decide : ∀ z ∈ trustedModule, isBlank z = false) x this]

/-- No sequel tells a carriage return from a newline. -/
theorem step_carriageReturn (s : Sequel) : s.step '\r' = s.step '\n' := by
  cases s with
  | other n =>
    rw [step, step]
    split
    · rfl
    · next y hy =>
      rw [if_neg (getElem?_trustedModule_ne (by decide) hy),
        if_neg (getElem?_trustedModule_ne (by decide) hy)]
  | _ => rfl

/-- No sequel tells two newlines from one. -/
theorem step_newline_newline (s : Sequel) : (s.step '\n').step '\n' = s.step '\n' := by
  cases s with
  | other n =>
    rw [step]
    split
    · rfl
    · next y hy =>
      rw [if_neg (getElem?_trustedModule_ne (by decide) hy)]
      rfl
  | _ => rfl

theorem holds_universalNewlines (s : Sequel) (t : Text) :
    s.Holds (Text.universalNewlines t) ↔ s.Holds t := by
  induction t using Text.universalNewlines.induct generalizing s with
  | case1 => exact Iff.rfl
  | case2 r ih =>
    rw [Text.universalNewlines, holds_cons, holds_cons, holds_cons, step_carriageReturn,
      step_newline_newline, ih]
  | case3 x r hx ih =>
    rw [Text.universalNewlines_cons hx, holds_cons, holds_cons, ih]
    split
    · next h => rw [h, step_carriageReturn]
    · rfl

end Sequel

/-- The end of a text allows a sign if the end with other newlines does. -/
theorem apart_universalNewlines {s : Sign} (hs : s ∈ Sign.all)
    (h : ∀ z ∈ (Text.universalNewlines t).getLast?, s.apart z = false) :
    ∀ z ∈ t.getLast?, s.apart z = false := by
  intro z hz
  obtain ⟨a, rfl⟩ := List.getLast?_eq_some_iff.mp (Option.mem_def.mp hz)
  by_cases hline : z = '\r' ∨ z = '\n'
  · refine apart_eq_false hs ?_
    rcases hline with rfl | rfl <;> decide
  · rw [not_or] at hline
    refine h z ?_
    clear h hz
    induction a using Text.universalNewlines.induct with
    | case1 => simp [Text.universalNewlines, hline]
    | case2 r ih =>
      rw [List.cons_append, List.cons_append, Text.universalNewlines, List.getLast?_cons,
        Option.mem_def.mp ih]
      rfl
    | case3 x r hx ih =>
      rw [List.cons_append, Text.universalNewlines_cons, List.getLast?_cons, Option.mem_def.mp ih]
      · rfl
      · rintro q rfl hq
        cases r with
        | nil => exact hline.2 (by simpa using congrArg List.head? hq)
        | cons y r => exact hx r rfl (by simpa using congrArg List.head? hq)

/-- A denied word of the result is one of the text. -/
theorem exists_of_universalNewlines_word {a w b : Text} (hw : w ∈ deniedWords)
    (h : Text.universalNewlines t = a ++ (w ++ b)) :
    ∃ a' b', t = a' ++ (w ++ b') ∧ Text.universalNewlines a' = a ∧
      Text.universalNewlines b' = b := by
  obtain ⟨a', c, rfl, rfl, hc⟩ := Text.exists_of_universalNewlines_eq h
  obtain ⟨w', b', rfl, hw', rfl⟩ := Text.exists_of_universalNewlines_eq hc
  refine ⟨a', b', ?_, rfl, rfl⟩
  have hn : '\n' ∉ w := (by decide : ∀ w ∈ deniedWords, '\n' ∉ w) w hw
  rw [← hw', Text.eq_of_universalNewlines (hw'.symm ▸ hn)]

theorem Clause.of_universalNewlines {m : Text} (h : Clause (Text.universalNewlines m)) :
    Clause m := by
  obtain ⟨c, g, f, he, hc, hg, hf⟩ := h
  obtain ⟨k, f', rfl, hk, rfl⟩ := Text.exists_of_universalNewlines_eq (u := c :: g) he
  have hblank : ∀ x ∈ k, isBlank x = true := by
    intro x hx
    by_cases hline : x = '\r' ∨ x = '\n'
    · rcases hline with rfl | rfl <;> decide
    · rw [not_or] at hline
      have := Text.mem_universalNewlines hx hline.1 hline.2
      rw [hk] at this
      rcases List.mem_cons.mp this with rfl | hx
      · exact hc
      · exact hg x hx
  have hflat : Text.universalNewlines f' = f' :=
    Text.eq_of_universalNewlines fun hn => absurd (hf _ hn) (by decide)
  cases k with
  | nil => cases hk
  | cons x k =>
    exact ⟨x, k, f', rfl, hblank x List.mem_cons_self,
      (List.forall_mem_cons.mp hblank).2, hflat ▸ hf⟩

/-- Newlines in one spelling bring no denied code about. -/
theorem Denied.of_universalNewlines (h : Denied (Text.universalNewlines t)) : Denied t := by
  rw [denied_iff] at h ⊢
  rcases h with ⟨a, m, b, he, hm, hb⟩ | ⟨s, hs, a, _, he, ha, b, rfl, hb⟩
  · obtain ⟨a, c, rfl, rfl, hc⟩ := exists_of_universalNewlines_word (by decide) he
    obtain ⟨m, d, rfl, rfl, hd⟩ := Text.exists_of_universalNewlines_eq hc
    obtain ⟨w, b, rfl, hw, rfl⟩ := Text.exists_of_universalNewlines_eq hd
    have hw' : w = fromWord := by
      rw [← hw, Text.eq_of_universalNewlines (hw.symm ▸ by decide)]
    subst hw'
    exact .inl ⟨a, m, b, rfl, hm.of_universalNewlines,
      (Sequel.holds_universalNewlines _ b).mp hb⟩
  · obtain ⟨a, b, rfl, rfl, rfl⟩ := exists_of_universalNewlines_word (mem_deniedWords hs) he
    exact .inr ⟨s, hs, a, _, rfl, apart_universalNewlines hs ha, b, rfl,
      (Sequel.holds_universalNewlines _ b).mp hb⟩

/-! ### Replacing a fixed text -/

/-- If no swap of `new` for `old` brings denied code about, then no replacement does. -/
theorem Denied.of_replace {old new : Text} (hold : old ≠ [])
    (hswap : ∀ l r, Denied (l ++ (new ++ r)) → Denied (l ++ (old ++ r)))
    (h : Denied (t.replace old new)) : Denied t := by
  have key (n : Nat) : ∀ l t : Text, t.length ≤ n →
      Denied (l ++ Text.replaceFrom old new 0 t) → Denied (l ++ t) := by
    induction n with
    | zero =>
      intro l t hn h
      rwa [List.length_eq_zero_iff.mp (Nat.le_zero.mp hn)] at h ⊢
    | succ n ih =>
      intro l t hn h
      cases t with
      | nil => exact h
      | cons x t =>
        rw [Text.replaceFrom] at h
        split at h
        · next hp =>
          obtain ⟨r, hr⟩ := List.isPrefixOf_iff_prefix.mp hp
          obtain ⟨y, o, rfl⟩ := List.exists_cons_of_ne_nil hold
          obtain ⟨rfl, rfl⟩ := List.cons.inj hr
          rw [Text.replaceFrom_eq, List.length_cons, Nat.add_sub_cancel] at h
          have hdrop : (o.append r).drop o.length = r := List.drop_left
          rw [hdrop, ← List.append_assoc] at h
          have hlen : r.length ≤ n := by
            have : (o ++ r).length = o.length + r.length := List.length_append
            simp at hn
            omega
          have := ih (l ++ new) r hlen h
          rw [List.append_assoc] at this
          exact hswap l r this
        · rw [List.append_cons] at h ⊢
          exact ih _ t (Nat.le_of_succ_le_succ hn) h
  exact key t.length [] t (Nat.le_refl _) h

/-! ### Replacing the pieces of a pattern -/

/-- Whether the last character of a text is a word character. -/
def endsInWord (t : Text) : Bool := t.getLast?.any isWord

theorem endsInWord_append (l : Text) {t : Text} (h : t ≠ []) :
    endsInWord (l ++ t) = endsInWord t := by
  rw [endsInWord, endsInWord, List.getLast?_append_of_ne_nil l h]

theorem Cursor.isAfter_isWord (c : Cursor) : c.isAfter isWord = endsInWord c.before.reverse :=
  c.isAfter_eq_any isWord

/-- Putting `f m` in place of a piece `m` of the pattern does not bring the property about, as long
as what stands before ends in a word just if the text of the piece does. -/
structure MendsWell (D : Text → Prop) (p : Pattern) (f : Match → Text) : Prop where
  text_ne_nil : ∀ m : Match, m.last ∈ p.ends ⟨m.first, []⟩ → m.text ≠ []
  ne_nil : ∀ m : Match, m.last ∈ p.ends ⟨m.first, []⟩ → f m ≠ []
  last : ∀ m : Match, m.last ∈ p.ends ⟨m.first, []⟩ → endsInWord (f m) = endsInWord m.text
  keeps : ∀ (m : Match) (l : Text), m.last ∈ p.ends ⟨m.first, []⟩ →
    endsInWord l = m.first.isAfter isWord →
    D (l ++ (f m ++ m.last.cursor.after)) → D (l ++ (m.text ++ m.last.cursor.after))

variable {D : Text → Prop}

theorem MendsWell.of_findUpTo {p : Pattern} {f : Match → Text} (h : MendsWell D p f) (n : Nat)
    (c : Cursor) (l : Text) (hl : endsInWord l = c.isAfter isWord)
    (hd : D (l ++ Pattern.fillIn f (p.findUpTo n c) c.pos c.after)) : D (l ++ c.after) := by
  induction n generalizing c l with
  | zero => exact hd
  | succ n ih =>
    rw [Pattern.findUpTo] at hd
    split at hd
    · exact hd
    · next m hm =>
      have hf := Pattern.finds_of_searchFrom? hm
      obtain ⟨a, b, ha, hb⟩ := hf.exists_over
      have htext : m.text = b := hb.between
      have hne : b ≠ [] := htext ▸ h.text_ne_nil m hf.last
      have hbefore : endsInWord (l ++ a) = m.first.isAfter isWord := by
        rw [Cursor.isAfter_isWord, ha.before, List.reverse_append, List.reverse_reverse]
        by_cases hnil : a = []
        · rw [hnil, List.append_nil, List.append_nil, hl, Cursor.isAfter_isWord]
        · rw [endsInWord_append _ hnil, endsInWord_append _ hnil]
      have hlater : m.first.pos < m.last.cursor.pos := by
        rw [hb.pos]
        exact Nat.lt_add_of_pos_right (List.length_pos_of_ne_nil hne)
      have hafter : c.after = a ++ (b ++ m.last.cursor.after) := by rw [ha.after, hb.after]
      have hstart : m.start - c.pos = a.length := by rw [Match.start, ha.pos]; omega
      have hstop : m.stop - c.pos = (a ++ b).length := by
        rw [Match.stop, hb.pos, ha.pos, List.length_append]
        omega
      dsimp only at hd
      rw [if_pos hlater, Pattern.fillIn, hstart, hstop, hafter, List.take_left,
        ← List.append_assoc a b, List.drop_left] at hd
      have hmid : endsInWord (l ++ (a ++ f m)) = m.last.cursor.isAfter isWord := by
        rw [Cursor.isAfter_isWord, hb.before, List.reverse_append, List.reverse_reverse,
          endsInWord_append _ hne, ← htext, ← h.last m hf.last, ← List.append_assoc,
          endsInWord_append _ (h.ne_nil m hf.last)]
      have hrest := ih m.last.cursor (l ++ (a ++ f m)) hmid (by simpa [Match.stop] using hd)
      have := h.keeps m (l ++ a) hf.last hbefore (by simpa using hrest)
      rw [hafter, ← htext]
      simpa using this

/-- Replacing all pieces does not bring the property about. -/
theorem MendsWell.of_replaceAll {p : Pattern} {f : Match → Text} (h : MendsWell D p f)
    (hd : D (p.replaceAll f t)) : D t :=
  h.of_findUpTo (t.length + 1) (.ofText t) [] rfl hd

end SnippetGate
