import SnippetGate.Proofs.Balance.Closing

/-!
# Blanks around a balanced text

A text stays balanced with blanks before it and behind it. Looking back passes blanks, and looking
ahead finds no tag in them. A comment at the very end of the text may take up some of them, and
ends with the first newline among them.
-/

namespace SnippetGate

/-- The place of a text, seen with `l` before the text and `r` behind it. -/
def Cursor.widen (l r : Text) (c : Cursor) : Cursor :=
  ⟨l.length + c.pos, c.before ++ l.reverse, c.after ++ r⟩

theorem Cursor.Over.widen {a : Text} {c d : Cursor} (h : c.Over a d) (l r : Text) :
    (c.widen l r).Over a (d.widen l r) where
  after := by rw [Cursor.widen, Cursor.widen, h.after, List.append_assoc]
  before := by rw [Cursor.widen, Cursor.widen, h.before, List.append_assoc]
  pos := by rw [Cursor.widen, Cursor.widen, h.pos, Nat.add_assoc]

theorem Cursor.Over.after_ne_nil {a : Text} {c d : Cursor} (h : c.Over a d) (ha : a ≠ []) :
    c.after ≠ [] := by
  rw [h.after]
  exact List.append_ne_nil_of_left_ne_nil ha _

namespace Grammar

open ScanState

variable {k : Context} {c d : Cursor} {l r t before after name : Text} {x y : Char}

/-! ### Looking back and ahead -/

theorem expressionCanFollow_append_blanks (hl : ∀ x ∈ l, isBlank x = true) (before : Text) :
    expressionCanFollow (before ++ l) = expressionCanFollow before := by
  induction before with
  | nil =>
    rw [List.nil_append, expressionCanFollow, expressionCanFollow,
      List.dropWhile_eq_nil_iff.mpr hl]
    rfl
  | cons x b ih =>
    cases hx : isBlank x with
    | true => rw [List.cons_append, expressionCanFollow_of_isBlank hx,
        expressionCanFollow_of_isBlank hx, ih]
    | false =>
      have hx' : ¬ isBlank x = true := by simp [hx]
      have htake := takeWhile_append_of_head (p := isNameChar)
        (fun y hy => not_isNameChar_of_isBlank (hl y (List.mem_of_mem_head? hy))) (x :: b)
      unfold expressionCanFollow
      rw [List.cons_append, List.dropWhile_cons_of_neg hx', List.dropWhile_cons_of_neg hx']
      dsimp only
      rw [← List.cons_append, htake]

theorem head?_append_blanks (hr : ∀ x ∈ r, isBlank x = true) (hy : isBlank y = false) :
    (after ++ r).head? = some y ↔ after.head? = some y := by
  cases after with
  | nil =>
    refine iff_of_false (fun h => ?_) nofun
    simp [hr y (List.mem_of_mem_head? h)] at hy
  | cons x a => exact Iff.rfl

theorem isSome_tagName?_append_blanks (hr : ∀ x ∈ r, isBlank x = true) :
    (tagName? (after ++ r)).isSome = (tagName? after).isSome := by
  cases after with
  | nil =>
    have hnone : tagName? r = none := tagName?_eq_none_of_head? fun x hx => by
      by_contra ha
      have hblank := hr x (List.mem_of_mem_head? hx)
      rw [not_isBlank_of_isAlpha (by simpa using ha)] at hblank
      cases hblank
    rw [List.nil_append, hnone]
    rfl
  | cons x a => by_cases hx : x.isAlpha = true <;> simp [tagName?, hx]

theorem beginsElement_widen_iff (hl : ∀ x ∈ l, isBlank x = true)
    (hr : ∀ x ∈ r, isBlank x = true) :
    BeginsElement k (before ++ l) (after ++ r) ↔ BeginsElement k before after := by
  have hgt : (after ++ r).head? = some '>' ↔ after.head? = some '>' :=
    head?_append_blanks hr (by decide)
  cases k with
  | script =>
    simp only [BeginsElement, opensMarkup, expressionCanFollow_append_blanks hl,
      isSome_tagName?_append_blanks hr, Bool.and_eq_true, Bool.or_eq_true, beq_iff_eq, hgt]
  | attrs => exact Iff.rfl
  | markup => simp only [BeginsElement, isSome_tagName?_append_blanks hr, hgt]

theorem BeginsWithClosingTag.of_append_blanks (hr : ∀ x ∈ r, isBlank x = true)
    (h : BeginsWithClosingTag (t ++ r)) : BeginsWithClosingTag t := by
  obtain ⟨name, piece, q, hp, he⟩ := h
  rcases List.append_eq_append_iff.mp he with ⟨k, rfl, rfl⟩ | ⟨q', rfl, rfl⟩
  · -- the end of a tag is no blank
    cases k using List.reverseRecOn with
    | nil => exact ⟨name, t, [], by simpa using hp, by simp⟩
    | append_singleton k z =>
      have hlast := hp.getLast?
      rw [← List.append_assoc, List.getLast?_concat] at hlast
      obtain rfl := Option.some.inj hlast
      exact absurd (hr '>' (by simp)) (by decide)
  · exact ⟨name, piece, q', hp, rfl⟩

theorem IsPlain.widen (hl : ∀ x ∈ l, isBlank x = true) (hr : ∀ x ∈ r, isBlank x = true)
    (h : IsPlain k before x after) : IsPlain k (before ++ l) x (after ++ r) := by
  have hhead {y : Char} (hy : isBlank y = false) (h : after.head? ≠ some y) :
      (after ++ r).head? ≠ some y := fun h' => h ((head?_append_blanks hr hy).mp h')
  have hmarkup {k : Context} (h : ¬ BeginsElement k before after ∧
      ¬ BeginsWithClosingTag (x :: after)) : ¬ BeginsElement k (before ++ l) (after ++ r) ∧
        ¬ BeginsWithClosingTag (x :: (after ++ r)) :=
    ⟨fun hb => h.1 ((beginsElement_widen_iff hl hr).mp hb),
      fun hb => h.2 (BeginsWithClosingTag.of_append_blanks (t := x :: after) hr hb)⟩
  cases k with
  | script =>
    obtain ⟨hsign, hslash, hlt⟩ := h
    exact ⟨hsign, fun hx => ⟨hhead (by decide) (hslash hx).1, hhead (by decide) (hslash hx).2⟩,
      fun hx => hmarkup (hlt hx)⟩
  | attrs =>
    obtain ⟨hsign, hslash⟩ := h
    exact ⟨hsign, fun hx => hhead (by decide) (hslash hx)⟩
  | markup =>
    obtain ⟨hsign, hlt⟩ := h
    exact ⟨hsign, fun hx => hmarkup (hlt hx)⟩

theorem OpensTag.widen (hl : ∀ x ∈ l, isBlank x = true) (hr : ∀ x ∈ r, isBlank x = true)
    (h : OpensTag k c name d) : OpensTag k (c.widen l r) name (d.widen l r) where
  written := h.written.widen l r
  isName := h.isName
  ends := by
    intro z hz
    cases ha : d.after with
    | nil =>
      rw [Cursor.widen, ha, List.nil_append] at hz
      exact not_isTagNameChar_of_isBlank (hr z (List.mem_of_mem_head? hz))
    | cons y a =>
      rw [Cursor.widen, ha] at hz
      exact h.ends z (by rw [ha]; exact hz)
  begins := by
    have hlrev : ∀ x ∈ l.reverse, isBlank x = true := fun x hx => hl x (List.mem_reverse.mp hx)
    rw [Cursor.widen, Cursor.widen, ← List.append_assoc]
    exact (beginsElement_widen_iff hlrev hr).mpr h.begins

theorem OpensFragment.widen (hl : ∀ x ∈ l, isBlank x = true) (hr : ∀ x ∈ r, isBlank x = true)
    (h : OpensFragment k c d) : OpensFragment k (c.widen l r) (d.widen l r) where
  written := h.written.widen l r
  begins := by
    have hlrev : ∀ x ∈ l.reverse, isBlank x = true := fun x hx => hl x (List.mem_reverse.mp hx)
    show BeginsElement k (c.before ++ l.reverse) ('>' :: d.after ++ r)
    exact (beginsElement_widen_iff hlrev hr).mpr h.begins

/-! ### Sequences -/

/-- What a sequence becomes with blanks around the text: it ends where it did, or else at the end
of the text, and farther on by some of the blanks. -/
def Widens (l r : Text) (k : Context) (c d : Cursor) : Prop :=
  ∃ a e, Reads k (c.widen l r) e ∧ (d.widen l r).Over a e ∧ (d.after ≠ [] → a = [])

theorem Widens.reads (h : Widens l r k c d) (hd : d.after ≠ []) :
    Reads k (c.widen l r) (d.widen l r) := by
  obtain ⟨a, e, he, ho, ha⟩ := h
  obtain rfl := ha hd
  rwa [← ho.skip] at he

theorem Widens.of_reads (h : Reads k (c.widen l r) (d.widen l r)) : Widens l r k c d :=
  ⟨[], _, h, Cursor.over_nil _, fun _ => rfl⟩

/-- A comment at the end of the text takes up blanks behind it, up to the first newline. -/
theorem widens_lastComment {b : Cursor} {body : Text}
    (h : Reads .script (c.widen l r) (b.widen l r)) (hbody : '\n' ∉ body)
    (ho : b.Over ('/' :: '/' :: body) d) (hd : d.after = []) : Widens l r .script c d := by
  have hafter : (d.widen l r).after = r := by rw [Cursor.widen, hd, List.nil_append]
  have hline : '\n' ∉ r.takeWhile (· != '\n') := fun hm => by
    simpa using List.all_eq_true.mp List.all_takeWhile _ hm
  have hsplit := List.takeWhile_append_dropWhile (p := (· != '\n')) (l := r)
  have hbody' : '\n' ∉ body ++ r.takeWhile (· != '\n') := by
    rw [List.mem_append, not_or]
    exact ⟨hbody, hline⟩
  -- the comment goes on to the end of the blanks, or to the first newline among them
  cases hrest : r.dropWhile (· != '\n') with
  | nil =>
    rw [hrest, List.append_nil] at hsplit
    have hr := Cursor.over_skip (c := d.widen l r) (a := r) (r := [])
      (by rw [hafter, List.append_nil])
    refine ⟨r, _, .lastComment h (hsplit ▸ hbody') ((ho.widen l r).trans hr) ?_, hr,
      fun hne => absurd hd hne⟩
    rw [Cursor.after_skip, hafter, List.drop_length]
  | cons y q =>
    have hy : y = '\n' := by
      have := List.head?_dropWhile_not (· != '\n') r
      rw [hrest] at this
      simpa using this
    subst hy
    rw [hrest] at hsplit
    have hr := Cursor.over_skip (c := d.widen l r) (a := r.takeWhile (· != '\n') ++ ['\n']) (r := q)
      (by rw [hafter, List.append_assoc, List.singleton_append, hsplit])
    refine ⟨_, _, .lineComment h hbody' ?_, hr, fun hne => absurd hd hne⟩
    simpa using (ho.widen l r).trans hr

theorem Reads.widens (hl : ∀ x ∈ l, isBlank x = true) (hr : ∀ x ∈ r, isBlank x = true)
    (h : Reads k c d) : Widens l r k c d := by
  have hlrev : ∀ x ∈ l.reverse, isBlank x = true := fun x hx => hl x (List.mem_reverse.mp hx)
  induction h with
  | nil => exact .of_reads (.nil _ _)
  | plain _ ho hp ih =>
    exact .of_reads (.plain (ih.reads (ho.after_ne_nil nofun)) (ho.widen l r) (hp.widen hlrev hr))
  | string _ hq hs ho ih =>
    exact .of_reads (.string (ih.reads (ho.after_ne_nil nofun)) hq hs (ho.widen l r))
  | lineComment _ hs ho ih =>
    exact .of_reads (.lineComment (ih.reads (ho.after_ne_nil nofun)) hs (ho.widen l r))
  | lastComment _ hs ho he ih =>
    exact widens_lastComment (ih.reads (ho.after_ne_nil nofun)) hs ho he
  | blockComment _ hs ho ih =>
    exact .of_reads (.blockComment (ih.reads (ho.after_ne_nil nofun)) hs (ho.widen l r))
  | bracket _ hp ho _ ho' ih ih' =>
    exact .of_reads (.bracket (ih.reads (ho.after_ne_nil nofun)) hp (ho.widen l r)
      (ih'.reads (ho'.after_ne_nil nofun)) (ho'.widen l r))
  | selfClosing _ ht _ ho ih ih' =>
    exact .of_reads (.selfClosing (ih.reads (ht.written.after_ne_nil nofun)) (ht.widen hl hr)
      (ih'.reads (ho.after_ne_nil nofun)) (ho.widen l r))
  | void _ ht hv _ ho ih ih' =>
    exact .of_reads (.void (ih.reads (ht.written.after_ne_nil nofun)) (ht.widen hl hr) hv
      (ih'.reads (ho.after_ne_nil nofun)) (ho.widen l r))
  | element _ ht hv _ ho _ hc ho' ih ih' ih'' =>
    exact .of_reads (.element (ih.reads (ht.written.after_ne_nil nofun)) (ht.widen hl hr) hv
      (ih'.reads (ho.after_ne_nil nofun)) (ho.widen l r)
      (ih''.reads (ho'.after_ne_nil hc.ne_nil)) hc (ho'.widen l r))
  | fragment _ ht _ hc ho ih ih' =>
    exact .of_reads (.fragment (ih.reads (ht.written.after_ne_nil nofun)) (ht.widen hl hr)
      (ih'.reads (ho.after_ne_nil hc.ne_nil)) hc (ho.widen l r))

/-- Script stays script with blanks around it. -/
theorem IsScript.blanks (hl : ∀ x ∈ l, isBlank x = true) (hr : ∀ x ∈ r, isBlank x = true)
    (h : IsScript t) : IsScript (l ++ (t ++ r)) := by
  have inert {b : Text} (hb : ∀ x ∈ b, isBlank x = true) : ∀ x ∈ b, isInert x = true :=
    fun x hx => isInert_of_isBlank (hb x hx)
  obtain ⟨d, hd, hend⟩ := h
  obtain ⟨a, e, he, ho, -⟩ := hd.widens hl hr
  have hstart : (Cursor.ofText (l ++ (t ++ r))).Over l ((Cursor.ofText t).widen l r) :=
    ⟨rfl, by simp [Cursor.widen, Cursor.ofText], by simp [Cursor.widen, Cursor.ofText]⟩
  have hrest : r = a ++ e.after := by
    have := ho.after
    rwa [Cursor.widen, hend, List.nil_append] at this
  have hlast : e.Over e.after (e.skip e.after.length) :=
    Cursor.over_skip (r := []) (List.append_nil _).symm
  refine ⟨_, reads_inert ((reads_inert (.nil _ _) (inert hl) hstart).trans he)
    (inert fun x hx => hr x (hrest ▸ List.mem_append_right a hx)) hlast, ?_⟩
  rw [Cursor.after_skip, List.drop_length]

end Grammar

/-- A balanced text stays balanced with blanks around it. -/
theorem isBalanced_blanks {l r t : Text} (hl : ∀ x ∈ l, isBlank x = true)
    (hr : ∀ x ∈ r, isBlank x = true) (h : (Scan.ofText t).isBalanced = true) :
    (Scan.ofText (l ++ (t ++ r))).isBalanced = true :=
  ScanState.isBalanced_of_isScript ((ScanState.isScript_of_isBalanced h).blanks hl hr)

/-- A balanced text costs nothing. -/
theorem cost_eq_zero_of_isBalanced {t : Text} (h : (Scan.ofText t).isBalanced = true) :
    (Scan.ofText t).cost = 0 := by
  obtain ⟨-, -, hin⟩ := ScanState.run_whole (P := fun _ => True) (ScanState.inWhole_start t) trivial
    fun _ _ _ => trivial
  obtain ⟨-, -, hframes⟩ := ScanState.of_isBalanced_outcome hin.closedAt? h
  have hissues : (Scan.ofText t).issues = [] := List.isEmpty_iff.mp h
  have hunclosed : (Scan.ofText t).unclosed = [] := by
    rw [Scan.ofText, Scan.ofTextFrom, Scan.ofTextWith, ScanState.outcome, hin.closedAt?, hframes]
    rfl
  rw [Scan.cost, hissues, hunclosed]
  rfl

end SnippetGate
