import SnippetGate.Proofs.Pattern.Replaced
import SnippetGate.Proofs.Repair.Endings

/-!
# One end of the returned value

What is taken away behind the end of the returned value are lines, and the lines that stay meet the
end of a block. So no end of the returned value has anything behind it any more that could be taken
away.
-/

namespace SnippetGate

namespace Pattern

variable {a : Pattern} {s t : Progress} {P C : Text → Prop} {n : Nat} {l r v w : Text}
  {κ : List (Nat × Capture)}

/-- One or more texts of a kind, one behind the other. -/
inductive Copies (P : Text → Prop) : Text → Prop where
  | one {w : Text} : P w → Copies P w
  | more {w v : Text} : P w → Copies P v → Copies P (w ++ v)

theorem Copies.append (h : Copies P w) (h' : Copies P v) : Copies P (w ++ v) := by
  induction h with
  | one hw => exact .more hw h'
  | more hw _ ih => exact List.append_assoc .. ▸ .more hw ih

/-- The pieces of the pattern are the texts of a kind, whatever stands beside them. -/
structure Describes (a : Pattern) (P : Text → Prop) : Prop where
  isExplicit : a.isExplicit = true
  fits_iff : ∀ u w v, a.Fits u w v ↔ P w
  ne_nil : ∀ w, P w → w ≠ []

theorem Describes.exists_over (h : a.Describes P) (ht : t ∈ a.ends s) :
    ∃ w, P w ∧ s.cursor.Over w t.cursor := by
  obtain ⟨w, ho, hf⟩ := exists_fits_of_mem_ends h.isExplicit ht
  exact ⟨w, (h.fits_iff ..).mp hf, ho⟩

theorem Describes.exists_mem_ends (h : a.Describes P) (hw : P w) (hs : s.cursor.after = w ++ r) :
    ∃ t ∈ a.ends s, s.cursor.Over w t.cursor ∧ t.cursor.after = r := by
  obtain ⟨⟨n, l, _⟩, κ⟩ := s
  obtain rfl := hs
  obtain ⟨t, ht, hc⟩ := leads_of_fits ((h.fits_iff l.reverse w r).mpr hw) n κ
  rw [List.reverse_reverse] at ht
  exact ⟨t, ht, by rw [hc]; exact ⟨rfl, by simp, rfl⟩, by rw [hc]⟩

theorem Describes.leads_iff (h : a.Describes P) :
    (a.Leads s fun t => C t.cursor.after) ↔ ∃ w r, s.cursor.after = w ++ r ∧ P w ∧ C r := by
  constructor
  · rintro ⟨t, ht, hc⟩
    obtain ⟨w, hw, ho⟩ := h.exists_over ht
    exact ⟨w, _, ho.after, hw, hc⟩
  · rintro ⟨w, r, hs, hw, hc⟩
    obtain ⟨t, ht, -, rfl⟩ := h.exists_mem_ends hw hs
    exact ⟨t, ht, hc⟩

theorem Describes.exists_over_of_repeatEnds (h : a.Describes P)
    (ht : t ∈ repeatEnds a.ends true n s) :
    ∃ w, (w = [] ∨ Copies P w) ∧ s.cursor.Over w t.cursor := by
  induction n generalizing s with
  | zero => exact ⟨[], .inl rfl, List.mem_singleton.mp ht ▸ Cursor.over_nil _⟩
  | succ n ih =>
    rcases mem_repeatEnds ht with rfl | ⟨u, hu, ht⟩
    · exact ⟨[], .inl rfl, Cursor.over_nil _⟩
    · obtain ⟨w, hw, ho⟩ := h.exists_over hu
      obtain ⟨v, rfl | hv, ho'⟩ := ih ht
      · exact ⟨w, .inr (.one hw), by simpa using ho.trans ho'⟩
      · exact ⟨w ++ v, .inr (.more hw hv), ho.trans ho'⟩

theorem mem_repeatEnds_self (step : Progress → List Progress) (n : Nat) (s : Progress) :
    s ∈ repeatEnds step true n s := by
  cases n with
  | zero => exact List.mem_singleton_self s
  | succ n => exact List.mem_append_right _ (List.mem_singleton_self s)

theorem Describes.exists_mem_repeatEnds (h : a.Describes P) (hw : Copies P w)
    (hs : s.cursor.after = w ++ r) (hn : w.length ≤ n) :
    ∃ t ∈ repeatEnds a.ends true n s, t.cursor.after = r := by
  have hstep {w r : Text} {s : Progress} {n : Nat} (hw : P w) (hs : s.cursor.after = w ++ r) :
      ∃ u, u.cursor.after = r ∧ ∀ t ∈ repeatEnds a.ends true n u,
        t ∈ repeatEnds a.ends true (n + 1) s := by
    obtain ⟨u, hu, ho, hr⟩ := h.exists_mem_ends hw hs
    refine ⟨u, hr, fun t ht => ?_⟩
    have hlt : s.cursor.pos < u.cursor.pos := by
      rw [ho.pos]
      exact Nat.lt_add_of_pos_right (List.length_pos_of_ne_nil (h.ne_nil w hw))
    rw [repeatEnds, if_pos rfl]
    exact List.mem_append_left _ (List.mem_flatMap.mpr ⟨u, hu, by rwa [if_pos hlt]⟩)
  induction hw generalizing s n with
  | one hw =>
    have := List.length_pos_of_ne_nil (h.ne_nil _ hw)
    obtain ⟨n, rfl⟩ : ∃ k, n = k + 1 := ⟨n - 1, by omega⟩
    obtain ⟨u, hr, hmem⟩ := hstep (n := n) hw hs
    exact ⟨u, hmem u (mem_repeatEnds_self ..), hr⟩
  | @more w v hw _ ih =>
    have := List.length_pos_of_ne_nil (h.ne_nil w hw)
    rw [List.length_append] at hn
    obtain ⟨n, rfl⟩ : ∃ k, n = k + 1 := ⟨n - 1, by omega⟩
    rw [List.append_assoc] at hs
    obtain ⟨u, hr, hmem⟩ := hstep (n := n) hw hs
    obtain ⟨t, ht, hr⟩ := ih (n := n) hr (by omega)
    exact ⟨t, hmem t ht, hr⟩

theorem Describes.exists_over_of_plus (h : a.Describes P) (ht : t ∈ (plus a).ends s) :
    ∃ w, Copies P w ∧ s.cursor.Over w t.cursor := by
  obtain ⟨u, hu, ht⟩ := mem_ends_seq.mp ht
  obtain ⟨w, hw, ho⟩ := h.exists_over hu
  obtain ⟨v, rfl | hv, ho'⟩ := h.exists_over_of_repeatEnds ht
  · exact ⟨w, .one hw, by simpa using ho.trans ho'⟩
  · exact ⟨w ++ v, .more hw hv, ho.trans ho'⟩

/-- Copies of a pattern are copies of the texts that it describes. -/
theorem Describes.leads_plus (h : a.Describes P) :
    ((plus a).Leads s fun t => C t.cursor.after) ↔
      ∃ w r, s.cursor.after = w ++ r ∧ Copies P w ∧ C r := by
  constructor
  · rintro ⟨t, ht, hc⟩
    obtain ⟨w, hw, ho⟩ := h.exists_over_of_plus ht
    exact ⟨w, _, ho.after, hw, hc⟩
  · rintro ⟨w, r, hs, hw, hc⟩
    cases hw with
    | one hw =>
      obtain ⟨t, ht, -, rfl⟩ := h.exists_mem_ends hw hs
      exact ⟨t, mem_ends_seq.mpr ⟨t, ht, mem_repeatEnds_self ..⟩, hc⟩
    | more hw hv =>
      rw [List.append_assoc] at hs
      obtain ⟨u, hu, -, hr⟩ := h.exists_mem_ends hw hs
      obtain ⟨t, ht, rfl⟩ := h.exists_mem_repeatEnds hv hr (n := u.cursor.after.length) (by
        rw [hr, List.length_append]
        exact Nat.le_add_right ..)
      exact ⟨t, mem_ends_seq.mpr ⟨u, hu, ht⟩, hc⟩

theorem leads_ahead {K : Progress → Prop} :
    (ahead a).Leads s K ↔ (a.Leads s fun _ => True) ∧ K s := by
  unfold Leads
  rw [ends]
  cases a.ends s <;> simp

end Pattern

open Pattern

namespace Repair

variable {a : Pattern} {P : Text → Prop} {m : Match} {y z : Char}
  {b c d g k l r s u v v' w : Text}

/-! ### Lines -/

/-- A line that ends the returned value, with the newline before it. -/
def IsReturnLine (w : Text) : Prop :=
  ∃ i j, w = '\n' :: (i ++ ')' :: ';' :: j) ∧ (∀ x ∈ i, Text.isIndent x = true) ∧
    ∀ x ∈ j, Text.isIndent x = true

/-- A line of a closing tag, with the newline before it. -/
def IsClosingLine (w : Text) : Prop :=
  ∃ i y n b j, w = '\n' :: (i ++ '<' :: '/' :: y :: (n ++ (b ++ '>' :: j))) ∧
    (∀ x ∈ i, Text.isIndent x = true) ∧ y.isAlpha = true ∧ (∀ x ∈ n, isTagNameChar x = true) ∧
    (∀ x ∈ b, isBlank x = true) ∧ ∀ x ∈ j, Text.isIndent x = true

/-- Behind a newline the text goes on with the character, which nothing but indent precedes. -/
def Opens (z : Char) (r : Text) : Prop :=
  ∃ i s, r = '\n' :: (i ++ z :: s) ∧ ∀ x ∈ i, Text.isIndent x = true

/-- The first line of the text, behind a newline, ends a block. -/
def EndsBlock (r : Text) : Prop := Opens '}' r

theorem describes_returnClose : returnClose.Describes IsReturnLine where
  isExplicit := rfl
  fits_iff u w v := by
    constructor
    · rintro ⟨_, _, rfl, ⟨x, rfl, hx⟩, i, _, rfl, hi, _, j, rfl, hclose, hj⟩
      obtain rfl := fits_text.mp hclose
      obtain rfl : x = '\n' := by simpa using hx
      exact ⟨i, j, rfl, hi, hj⟩
    · rintro ⟨i, j, rfl, hi, hj⟩
      exact ⟨['\n'], _, rfl, ⟨_, rfl, rfl⟩, i, _, rfl, hi, ");".toList, j, rfl,
        fits_text.mpr rfl, hj⟩
  ne_nil := by
    rintro _ ⟨i, j, rfl, -⟩
    exact List.cons_ne_nil _ _

theorem describes_closingLine : closingLine.Describes IsClosingLine where
  isExplicit := rfl
  fits_iff u w v := by
    constructor
    · rintro ⟨_, _, rfl, ⟨x, rfl, hx⟩, i, _, rfl, hi, _, j, rfl, htag, hj⟩
      obtain ⟨_, _, rfl, hopen, _, _, rfl, ⟨_, n, rfl, ⟨y, rfl, hy⟩, hn⟩, b, _, rfl, hb, z, rfl,
        hz⟩ := htag
      obtain rfl := fits_text.mp hopen
      obtain rfl : x = '\n' := by simpa using hx
      obtain rfl : z = '>' := by simpa using hz
      exact ⟨i, y, n, b, j, by simp, hi, hy, hn, hb, hj⟩
    · rintro ⟨i, y, n, b, j, rfl, hi, hy, hn, hb, hj⟩
      exact ⟨['\n'], _, rfl, ⟨_, rfl, rfl⟩, i, _, rfl, hi, _, j, by simp,
        ⟨"</".toList, _, rfl, fits_text.mpr rfl, y :: n, _, rfl, ⟨[y], n, rfl, ⟨y, rfl, hy⟩, hn⟩,
          b, ['>'], rfl, hb, '>', rfl, rfl⟩, hj⟩
  ne_nil := by
    rintro _ ⟨i, y, n, b, j, rfl, -⟩
    exact List.cons_ne_nil _ _

/-! ### Ends of the returned value with something behind them -/

theorem leads_blockCloseAhead {s : SnippetGate.Progress} :
    (blockCloseAhead.Leads s fun _ => True) ↔ EndsBlock s.cursor.after := by
  obtain ⟨⟨n, l, t⟩, κ⟩ := s
  rw [blockCloseAhead, leads_ahead, and_true]
  have hseq : ((all [char '\n', indent, char '}']).Leads ⟨⟨n, l, t⟩, κ⟩ fun _ => True) ↔
      ∃ x r, t = x :: r ∧ (x == '\n') = true ∧ ∃ i q, r = i ++ q ∧
        (∀ y ∈ i, Text.isIndent y = true) ∧ ∃ z s, q = z :: s ∧ (z == '}') = true ∧ True := by
    simp only [all, char, indent, many, leads_seq, leads_one, leads_run]
  rw [hseq]
  constructor
  · rintro ⟨x, _, rfl, hx, i, _, rfl, hi, z, s, rfl, hz, -⟩
    obtain rfl : x = '\n' := by simpa using hx
    obtain rfl : z = '}' := by simpa using hz
    exact ⟨i, s, rfl, hi⟩
  · rintro ⟨i, s, rfl, hi⟩
    exact ⟨_, _, rfl, rfl, i, _, rfl, hi, _, s, rfl, rfl, trivial⟩

/-- An end of the returned value with lines behind it, up to the end of a block. -/
def ReturnsTwice (P : Text → Prop) (v : Text) : Prop :=
  ∃ w c r, v = w ++ (c ++ r) ∧ IsReturnLine w ∧ Copies P c ∧ EndsBlock r

theorem startsAt_doubledEnd (ha : a.Describes P) :
    (doubledEnd a).StartsAt u v ↔ ReturnsTwice P v := by
  have hplus (s : SnippetGate.Progress) :
      ((seq (plus a) blockCloseAhead).Leads s fun _ => True) ↔
        ∃ c r, s.cursor.after = c ++ r ∧ Copies P c ∧ EndsBlock r := by
    rw [leads_seq, ← ha.leads_plus]
    simp only [Leads, leads_blockCloseAhead.symm]
  have hgroup {C : Text → Prop} (s : SnippetGate.Progress) :
      ((Pattern.group 1 returnClose).Leads s fun t => C t.cursor.after) ↔
        returnClose.Leads s fun t => C t.cursor.after := by
    simp [Leads, ends, Progress.remember]
  have hall : doubledEnd a = .seq (.group 1 returnClose) (.seq (plus a) blockCloseAhead) := rfl
  rw [StartsAt, hall, leads_seq]
  simp only [hplus]
  rw [hgroup (C := fun t => ∃ c r, t = c ++ r ∧ Copies P c ∧ EndsBlock r),
    describes_returnClose.leads_iff (C := fun t => ∃ c r, t = c ++ r ∧ Copies P c ∧ EndsBlock r)]
  constructor
  · rintro ⟨w, _, hv, hw, c, r, rfl, hc, hr⟩
    exact ⟨w, c, r, hv, hw, hc, hr⟩
  · rintro ⟨w, c, r, hv, hw, hc, hr⟩
    exact ⟨w, _, hv, hw, c, r, rfl, hc, hr⟩

/-- An end of the returned value and what is taken away behind it. -/
theorem exists_of_takes (ha : a.Describes P) (hplain : (plus a).isUngrouped = true)
    (h : (doubledEnd a).Takes u m v) :
    ∃ c, m.text = m.group 1 ++ c ∧ IsReturnLine (m.group 1) ∧ Copies P c ∧ EndsBlock v := by
  obtain ⟨u₁, h₁, hlast⟩ := mem_ends_seq.mp h.mem_ends
  obtain ⟨u₂, h₂, rfl⟩ := mem_ends_group h₁
  obtain ⟨u₃, h₃, hahead⟩ := mem_ends_seq.mp hlast
  obtain ⟨w, hw, ow⟩ := describes_returnClose.exists_over h₂
  obtain ⟨c, hc, oc⟩ := ha.exists_over_of_plus h₃
  have hsame := mem_ends_ahead hahead
  have hgroup : m.group 1 = w := by
    rw [Match.group, hsame, Progress.group?, captures_of_mem_ends hplain h₃]
    exact ow.between
  have htext : m.text = w ++ c := by
    rw [Match.text, hsame]
    exact (ow.trans oc).between
  rw [hgroup]
  refine ⟨c, htext, hw, hc, ?_⟩
  rw [← h.after, hsame]
  exact leads_blockCloseAhead.mp ⟨m.last, hahead, trivial⟩

/-! ### No second end -/

theorem Opens.append (h : Opens z r) (s : Text) : Opens z (r ++ s) := by
  obtain ⟨i, q, rfl, hi⟩ := h
  exact ⟨i, q ++ s, by simp, hi⟩

theorem forall_isBlank_newline {i : Text} (hi : ∀ x ∈ i, Text.isIndent x = true) :
    ∀ x ∈ '\n' :: i, isBlank x = true :=
  List.forall_mem_cons.mpr ⟨rfl, fun x hx => isBlank_of_isIndent (hi x hx)⟩

/-- What a text opens with is decided before the next line. -/
theorem Opens.of_append (h : Opens z (k ++ r)) (hr : Opens y r) (hz : isBlank z = false)
    (hy : isBlank y = false) (hne : z ≠ y) (s : Text) : Opens z (k ++ s) := by
  obtain ⟨i, q, h, hi⟩ := h
  obtain ⟨i', q', rfl, hi'⟩ := hr
  have hsplit : ('\n' :: i) ++ z :: q = k ++ (('\n' :: i') ++ y :: q') := h.symm
  rcases List.append_eq_append_iff.mp hsplit with ⟨c, rfl, hc⟩ | ⟨c, hc, hrest⟩
  · cases c with
    | nil =>
      obtain ⟨rfl, -⟩ := List.cons.inj hc
      exact absurd hz (by decide)
    | cons x c =>
      obtain ⟨rfl, -⟩ := List.cons.inj hc
      exact ⟨i, c ++ s, by simp, hi⟩
  · have hblank : ∀ x ∈ c, isBlank x = true := fun x hx =>
      forall_isBlank_newline hi x (hc ▸ List.mem_append_right k hx)
    obtain ⟨-, rfl, -⟩ :=
      Text.eq_of_first_of_other (forall_isBlank_newline hi') hblank hy hz hrest
    exact absurd rfl hne

theorem IsReturnLine.opens (h : IsReturnLine w) : Opens ')' w := by
  obtain ⟨i, j, rfl, hi, -⟩ := h
  exact ⟨i, ';' :: j, rfl, hi⟩

theorem IsClosingLine.opens (h : IsClosingLine w) : Opens '<' w := by
  obtain ⟨i, y, n, b, j, rfl, hi, -⟩ := h
  exact ⟨i, _, rfl, hi⟩

theorem newline_not_mem_indent {i : Text} (hi : ∀ x ∈ i, Text.isIndent x = true) : '\n' ∉ i :=
  fun h => absurd (hi _ h) (by decide)

/-- No line begins inside of an end of the returned value. -/
theorem IsReturnLine.eq_nil_of_opens (h : IsReturnLine (k ++ d)) (hd : d ≠ [])
    (hy : Opens y (d ++ r)) : k = [] := by
  obtain ⟨i, j, h, hi, hj⟩ := h
  obtain ⟨z, d, rfl⟩ := List.exists_cons_of_ne_nil hd
  obtain ⟨i', q, hq, -⟩ := hy
  obtain ⟨rfl, -⟩ := List.cons.inj hq
  cases k with
  | nil => rfl
  | cons x k =>
    have hmem : '\n' ∈ i ++ ')' :: ';' :: j := by
      rw [← (List.cons.inj h).2]
      simp
    simp [newline_not_mem_indent hi, newline_not_mem_indent hj] at hmem

/-- What begins at a newline in a line of a closing tag goes on with a bracket of the tag. -/
theorem IsClosingLine.eq_of_opens (h : IsClosingLine (k ++ d)) (hd : d ≠ [])
    (hy : Opens y (d ++ r)) (hblank : isBlank y = false) : y = '<' ∨ y = '>' := by
  obtain ⟨i, x, n, b, j, h, hi, hx, hn, hb, hj⟩ := h
  obtain ⟨z, d, rfl⟩ := List.exists_cons_of_ne_nil hd
  obtain ⟨i', q, hq, hi'⟩ := hy
  rw [List.cons_append] at hq
  obtain ⟨rfl, htail⟩ := List.cons.inj hq
  cases k with
  | nil =>
    refine .inl ?_
    have hrest : i' ++ y :: q = i ++ '<' :: ('/' :: x :: (n ++ (b ++ '>' :: j)) ++ r) := by
      rw [← htail, (List.cons.inj h).2]
      simp
    exact (Text.eq_of_first_of_other (fun z hz => isBlank_of_isIndent (hi' z hz))
      (fun z hz => isBlank_of_isIndent (hi z hz)) hblank (by decide) hrest).2.1
  | cons x₀ k =>
    refine .inr ?_
    have hname : '\n' ∉ i ++ '<' :: '/' :: x :: n := by
      have hx' : x ≠ '\n' := by rintro rfl; exact absurd hx (by decide)
      have hn' : '\n' ∉ n := fun hm => absurd (hn _ hm) (by decide)
      simp [newline_not_mem_indent hi, hx'.symm, hn']
    obtain ⟨k', -, hk⟩ := Text.exists_of_append_cons_eq (a := k) (z := '\n') (b := d)
      (w := i ++ '<' :: '/' :: x :: n) (r := b ++ '>' :: j) (by simpa using (List.cons.inj h).2)
      hname
    rcases List.append_eq_append_iff.mp hk with ⟨c, -, hc⟩ | ⟨c, rfl, hc⟩
    · have hmem : '\n' ∈ '>' :: j := by
        rw [hc]
        simp
      simp [newline_not_mem_indent hj] at hmem
    · have hrest : ('\n' :: i') ++ y :: q = c ++ '>' :: (j ++ r) := by
        rw [List.cons_append, ← htail, ← List.cons_append, hc]
        simp
      exact (Text.eq_of_first_of_other (forall_isBlank_newline hi')
        (fun z hz => hb z (List.mem_append_right k' hz)) hblank (by decide) hrest).2.1

/-- What may stand behind an end of the returned value, so that taking it away brings no second one
together: lines that do not end a block, and that are whole up to any end of the returned value
among them. -/
structure Removable (P : Text → Prop) : Prop where
  opens : ∀ {w}, P w → ∃ z, Opens z w ∧ isBlank z = false ∧ z ≠ '}'
  whole : ∀ {g k d r}, Copies P (k ++ d) → d ≠ [] → IsReturnLine g → Opens ')' (d ++ r) →
    (k = [] ∨ Copies P k) ∧ P g

theorem removable_returnLine : Removable IsReturnLine where
  opens h := ⟨')', h.opens, by decide, by decide⟩
  whole {g k d r} h hd hg hr := by
    refine ⟨?_, hg⟩
    generalize hw : k ++ d = w at h
    induction h generalizing k with
    | one h => exact .inl (IsReturnLine.eq_nil_of_opens (hw ▸ h) hd hr)
    | @more w v h hv ih =>
      rcases List.append_eq_append_iff.mp hw.symm with ⟨c, rfl, hc⟩ | ⟨c, hc, rfl⟩
      · rcases ih hc.symm with rfl | hk
        · exact .inr (by simpa using Copies.one h)
        · exact .inr (.more h hk)
      · by_cases hne : c = []
        · subst hne
          rw [List.append_nil] at hc
          exact .inr (.one (hc ▸ h))
        · rw [List.append_assoc] at hr
          exact .inl (IsReturnLine.eq_nil_of_opens (hc ▸ h) hne hr)

theorem removable_closingLine : Removable IsClosingLine where
  opens h := ⟨'<', h.opens, by decide, by decide⟩
  whole {g k d r} h hd _ hr := by
    exfalso
    have hno {k d r : Text} (h : IsClosingLine (k ++ d)) (hd : d ≠ []) (hr : Opens ')' (d ++ r)) :
        False := by
      rcases h.eq_of_opens hd hr (by decide) with h | h <;> exact absurd h (by decide)
    generalize hw : k ++ d = w at h
    induction h generalizing k d with
    | one h => exact hno (hw ▸ h) hd hr
    | @more w v h hv ih =>
      rcases List.append_eq_append_iff.mp hw.symm with ⟨c, rfl, hc⟩ | ⟨c, hc, rfl⟩
      · exact ih hd hr hc.symm
      · by_cases hne : c = []
        · subst hne
          exact ih (k := []) hd hr rfl
        · rw [List.append_assoc] at hr
          exact hno (hc ▸ h) hne hr

section

variable (hP : Removable P)

include hP

theorem Removable.opens_copies (hc : Copies P c) :
    ∃ z, Opens z c ∧ isBlank z = false ∧ z ≠ '}' := by
  cases hc with
  | one hw => exact hP.opens hw
  | more hw _ =>
    obtain ⟨z, ho, hz⟩ := hP.opens hw
    exact ⟨z, ho.append _, hz⟩

/-- No second end comes together across the beginning of an end that stays. -/
theorem Removable.not_returnsTwice_across (hg : IsReturnLine g) (hc : Copies P c)
    (hv : EndsBlock v) (hk : k ≠ []) (h : ¬ ReturnsTwice P (k ++ (g ++ c ++ v))) :
    ¬ ReturnsTwice P (k ++ (g ++ v')) := by
  rintro ⟨w, c', r, he, hw, hc', hr⟩
  have hopens : Opens ')' (g ++ v') := hg.opens.append v'
  rcases Text.cases_of_append_eq he.symm with ⟨d, hd, rfl, hrest⟩ | ⟨k', d, hd, rfl, rfl, hrest⟩ |
    ⟨k', rfl, rfl⟩
  · exact hk (hw.eq_nil_of_opens hd (hrest ▸ hopens))
  · -- the line that stays is one of those behind the end, and so are what came after it
    obtain ⟨hk', hg'⟩ := hP.whole hc' hd hg (hrest ▸ hopens)
    refine h ⟨w, k' ++ (g ++ c), v, by simp, hw, ?_, hv⟩
    rcases hk' with rfl | hk'
    · simpa using Copies.more hg' hc
    · exact hk'.append (.more hg' hc)
  · exact h ⟨w, c', k' ++ (g ++ c ++ v), by simp, hw, hc',
      hr.of_append hopens (by decide) (by decide) (by decide) _⟩

/-- No second end comes together inside of an end that stays. -/
theorem Removable.not_returnsTwice_inside (hg : IsReturnLine (k ++ b)) (hb : b ≠ [])
    (hv' : EndsBlock v') : ¬ ReturnsTwice P (b ++ v') := by
  rintro ⟨w, c, r, he, hw, hc, -⟩
  obtain rfl := hg.eq_nil_of_opens hb (he ▸ hw.opens.append _)
  obtain ⟨i, j, rfl, hi, hj⟩ := hg
  obtain ⟨i', j', rfl, hi', hj'⟩ := hw
  obtain ⟨z, ho, hz, hne⟩ := hP.opens_copies hc
  -- behind both ends the next line begins, which ends a block but does not
  have hrest : i ++ ')' :: (';' :: (j ++ v')) = i' ++ ')' :: (';' :: (j' ++ (c ++ r))) := by
    simpa using he
  have hline := (Text.eq_of_first_of_other (fun x hx => isBlank_of_isIndent (hi x hx))
    (fun x hx => isBlank_of_isIndent (hi' x hx)) (by decide) (by decide) hrest).2.2
  replace hline := (List.cons.inj hline).2
  have hcr := ho.append r
  obtain ⟨k₁, q₁, rfl, hk₁⟩ := hv'
  obtain ⟨k₂, q₂, hq₂, hk₂⟩ := hcr
  rw [hq₂] at hline
  have hsame := (Text.eq_of_first_of_other hj hj' (by decide) (by decide) hline).2.2
  exact hne (Text.eq_of_first_of_other (fun x hx => isBlank_of_isIndent (hk₂ x hx))
    (fun x hx => isBlank_of_isIndent (hk₁ x hx)) hz (by decide) hsame.symm).2.1

end

variable {f : Match → Text}

/-- The next line ends a block in the new text if it does in the old one. -/
theorem EndsBlock.of_replaced {p : Pattern} (h : Replaced p f u v v') (hv : EndsBlock v)
    (hopens : ∀ {u m v}, p.Takes u m v → Opens ')' m.text) : EndsBlock v' := by
  cases h with
  | rest => exact hv
  | piece _ htakes _ =>
    exact Opens.of_append hv ((hopens htakes).append _) (by decide) (by decide) (by decide) _

/-- Ends of the returned value with nothing behind them but the end of the block have no second end
behind them any more. -/
theorem occursIn_doubledEnd (ha : a.Describes P) (hP : Removable P)
    (hplain : (plus a).isUngrouped = true) (hne : (doubledEnd a).NeverEmpty) (t : Text) :
    (doubledEnd a).occursIn ((doubledEnd a).replaceAll (·.group 1) t) = false := by
  have hopens {u : Text} {m : Match} {v : Text} (h : (doubledEnd a).Takes u m v) :
      Opens ')' m.text := by
    obtain ⟨c, htext, hg, -⟩ := exists_of_takes ha hplain h
    rw [htext]
    exact hg.opens.append c
  refine occursIn_replaceAll (E := fun _ _ => True) hne trivial ⟨fun _ _ => trivial,
    fun _ _ => trivial, ?_, ?_, ?_⟩
  · intro l u v _ hgap h
    exact hgap ((startsAt_doubledEnd ha).mpr ((startsAt_doubledEnd ha).mp h))
  · intro l u k v v' m _ hk hno htakes _ h
    obtain ⟨c, htext, hg, hc, hv⟩ := exists_of_takes ha hplain htakes
    rw [startsAt_doubledEnd ha] at hno h
    exact hP.not_returnsTwice_across hg hc hv hk (by rwa [← htext]) h
  · intro l u v v' b d m _ htakes hrep hf hd h
    obtain ⟨c, htext, hg, hc, hv⟩ := exists_of_takes ha hplain htakes
    rw [startsAt_doubledEnd ha] at h
    exact hP.not_returnsTwice_inside (hf ▸ hg) hd (hv.of_replaced hrep hopens) h

theorem occursIn_doubledReturnClose (t : Text) :
    doubledReturnClose.occursIn (doubledReturnClose.replaceAll (·.group 1) t) = false :=
  occursIn_doubledEnd describes_returnClose removable_returnLine rfl
    mendsWell_doubledReturnClose.text_ne_nil t

theorem occursIn_orphanClosers (t : Text) :
    orphanClosers.occursIn (orphanClosers.replaceAll (·.group 1) t) = false :=
  occursIn_doubledEnd describes_closingLine removable_closingLine rfl
    mendsWell_orphanClosers.text_ne_nil t

end Repair

end SnippetGate
