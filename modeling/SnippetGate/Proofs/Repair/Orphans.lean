import SnippetGate.Proofs.Balance.LineEnds
import SnippetGate.Proofs.Balance.Within
import SnippetGate.Proofs.Repair.TagIssue

/-!
# Closing tags without an opener are dropped

A closing tag that closes nothing leaves the frames as they are. So a text from which it is cut
out, with its line if nothing else is on it, is scanned alike before and behind the cut, provided
that the tag has cut short no other tag, that nothing is read across the cut, and that the next `<`
is told as before: what stands before the cut comes to stand before that `<`.
-/

namespace SnippetGate

open ScanState

variable {t : Text} {s s' u : ScanState} {i j p n : Nat} {y : Char}

/-! ### Back over blanks -/

/-- A string begins with a quotation mark, so with no blank. -/
theorem ScanState.quotesInk_moveAt (s : ScanState) (x : Char) (rest : Text) :
    (s.moveAt x rest).QuotesInk := by
  by_cases hs : s.stack.mode = .string
  · unfold moveAt Move.next
    rw [hs]
    dsimp only
    unfold Move.inString
    repeat' split
    all_goals trivial
  by_cases hx : x = '\n'
  · unfold moveAt Move.next
    cases hm : s.stack.mode with
    | normal =>
      dsimp only
      rw [Move.outside_of_plain (isPlain_of_isInert (x := x) (hx ▸ rfl) _ _ _)]
      trivial
    | string => exact absurd hm hs
    | lineComment =>
      dsimp only
      unfold Move.inLineComment
      split <;> trivial
    | blockComment =>
      dsimp only
      unfold Move.inBlockComment
      split <;> trivial
  · exact (Move.next_respells hx (absurd · hs) rfl _).ink

theorem ScanState.quote_of_walks (hw : Walks (whole t.length) (Scan.start t 0) s) :
    ∀ z ∈ s.stack.quote, isBlank z = false := by
  have both := hw.keeps (P := fun s => InWhole t.length s ∧ ∀ z ∈ s.stack.quote, isBlank z = false)
    (fun {s u} hst ⟨hin, hq⟩ => ?_) ⟨inWhole_start t, List.forall_mem_nil _⟩
  · exact both.2
  obtain ⟨x, rest, -, rfl⟩ := hin.steps hst
  exact ⟨hin.apply _, Spells.quote_apply hq (quotesInk_moveAt s x rest)⟩

/-- What a scan has come from over a blank: the same, or a comment that ends with the line. -/
structure Precedes (s' s : ScanState) : Prop where
  issues : s'.issues = s.issues
  stack : s'.stack = s.stack ∨ s'.stack.mode = .lineComment ∧ s.stack = s'.stack.leave

/-- A scan that comes to the place behind a character comes to it in the step that reads the
character. -/
theorem ScanState.ReadAt.exists_apply_eq (hread : ReadAt t p s') (hlt : p < t.length)
    (h : Arrives t (p + 1) s) (hd : Departs t (p + 1)) :
    ∃ x rest, s'.cursor.after = x :: rest ∧ (s'.moveAt x rest).apply s' = s := by
  obtain ⟨x, rest, ha, hst, -⟩ := hread.exists_move hlt
  refine ⟨x, rest, ha, ?_⟩
  have hnext := hread.last _ hst
  have hle := hread.le
  have hw : Walks (whole t.length) s' s := (hread.walks.total h.walks).resolve_right fun hw => by
    have := Walks.pos_le hw h.inWhole
    rw [h.pos] at this
    omega
  obtain rfl | ⟨w, hst', hws⟩ := Relation.ReflTransGen.cases_head hw
  · rw [h.pos] at hle
    omega
  obtain rfl := Option.some.inj (hst'.symm.trans hst)
  have hle' := Walks.pos_le hws (hread.inWhole.apply _)
  rw [h.pos] at hle'
  exact hd.eq ⟨hread.walks.tail hst, by omega⟩ h

/-- Outside of strings and block comments, a scan that comes to a place behind a blank has come to
the place before the blank. -/
theorem Arrives.exists_before_blank (h : Arrives t (p + 1) s) (hd : Departs t (p + 1))
    (hy : t[p]? = some y) (hblank : isBlank y = true)
    (hm : s.stack.mode = .normal ∨ s.stack.mode = .lineComment) :
    ∃ s', Arrives t p s' ∧ Precedes s' s := by
  obtain ⟨s', hread⟩ := exists_readAt t p
  obtain ⟨x, rest, ha, rfl⟩ :=
    hread.exists_apply_eq (List.getElem?_eq_some_iff.mp hy).1 h hd
  have hle := hread.le
  have hpos := h.pos
  rw [Move.cursor_apply, Cursor.pos_skip, ha, List.length_cons] at hpos
  have hdrop := after_eq_drop hread.walks
  have hstring (hlen : 1 < (s'.moveAt x rest).length) : s'.stack.mode ≠ .string := by
    intro hmode
    rw [moveAt_of_string hlen hmode] at hm
    rcases hm with hm | hm <;> exact nomatch hmode.symm.trans hm
  -- the blank is read alone, as it is the last character that is read
  have hat : s'.cursor.pos = p := by
    by_contra hne
    have hlast : ((x :: rest).take (s'.moveAt x rest).length).getLast? = some y := by
      rw [List.getLast?_eq_getElem?, List.length_take, List.getElem?_take, if_pos (by omega), ← ha,
        hdrop, List.getElem?_drop, ← hdrop, ha, List.length_cons, ← hy]
      congr 1
      omega
    obtain hname | rfl | rfl | rfl := getLast?_of_moveAt (by omega) (hstring (by omega)) y hlast
    · rw [not_isTagNameChar_of_isBlank hblank] at hname
      cases hname
    all_goals cases hblank
  have hx : x = y := by
    rw [ha, hat] at hdrop
    have hhead := congrArg List.head? hdrop
    rw [List.head?_drop, hy] at hhead
    exact Option.some.inj hhead
  subst hx
  refine ⟨s', ⟨hread.walks, hat⟩, ?_⟩
  by_cases hline : s'.stack.mode = .lineComment ∧ x = '\n'
  · have hmove : s'.moveAt x rest = .leave 1 := by
      unfold moveAt Move.next
      rw [hline.1, hline.2]
      rfl
    rw [hmove]
    exact ⟨rfl, .inr ⟨hline.1, rfl⟩⟩
  · rw [Spells.moveAt_of_isBlank (quote_of_walks hread.walks) hblank
      fun h₁ h₂ => hline ⟨h₁, h₂⟩]
    exact ⟨rfl, .inl rfl⟩

theorem Precedes.trans {s s' s'' : ScanState} (h : Precedes s'' s') (h' : Precedes s' s) :
    Precedes s'' s := by
  refine ⟨h.issues.trans h'.issues, ?_⟩
  rcases h'.stack with he' | ⟨hline', he'⟩
  · rw [← he']
    exact h.stack
  rcases h.stack with he | ⟨-, he⟩
  · rw [he']
    exact .inr ⟨he ▸ hline', by rw [he]⟩
  · -- behind a comment that has ended there is none
    rw [he] at hline'
    cases hline'

/-- A scan that comes to a place behind blanks has come to the place before them. -/
theorem Arrives.exists_before_blanks {pre w r : Text} (hw : ∀ x ∈ w, isBlank x = true)
    (h : Arrives (pre ++ w ++ r) (pre ++ w).length s)
    (hd : Departs (pre ++ w ++ r) (pre ++ w).length)
    (hm : s.stack.mode = .normal ∨ s.stack.mode = .lineComment) :
    ∃ s', Arrives (pre ++ w ++ r) pre.length s' ∧ Precedes s' s := by
  induction w using List.reverseRecOn generalizing s r with
  | nil =>
    rw [List.append_nil] at h ⊢
    exact ⟨s, h, rfl, .inl rfl⟩
  | append_singleton w x ih =>
    obtain ⟨hw, hx⟩ := List.forall_mem_append.mp hw
    have hblank := hx x (List.mem_singleton_self x)
    have hsplit : pre ++ (w ++ [x]) ++ r = pre ++ w ++ (x :: r) := by simp
    have hlen : (pre ++ (w ++ [x])).length = (pre ++ w).length + 1 := by simp [Nat.add_assoc]
    have hat : (pre ++ w ++ (x :: r))[(pre ++ w).length]? = some x := by simp
    rw [hsplit, hlen] at h hd
    rw [hsplit]
    obtain ⟨s₁, h₁, hs₁⟩ := h.exists_before_blank hd hat hblank hm
    have hne : x ≠ '<' := by
      rintro rfl
      cases hblank
    have hm₁ : s₁.stack.mode = .normal ∨ s₁.stack.mode = .lineComment := by
      rcases hs₁.stack with he | ⟨hline, -⟩
      · rw [he]
        exact hm
      · exact .inr hline
    obtain ⟨s', h', hs'⟩ := ih hw h₁ (departs_of_ne_lt hat hne) hm₁
    exact ⟨s', h', hs'.trans hs₁⟩

/-! ### On over blanks -/

/-- Outside of strings and comments a walk goes on over blanks. -/
theorem ScanState.InWhole.walks_blanks {w r : Text} (h : InWhole n s) (hm : s.stack.mode = .normal)
    (hw : ∀ x ∈ w, isBlank x = true) (ha : s.cursor.after = w ++ r) :
    Walks (whole n) s (s.advance w.length) := by
  induction w generalizing s with
  | nil => exact .refl
  | cons x w ih =>
    obtain ⟨hx, hw⟩ := List.forall_mem_cons.mp hw
    have hstep : Steps (whole n) s (s.advance 1) := by
      refine h.steps_of_moveAt (m := .pass 1) ha ?_
      unfold moveAt Move.next
      rw [hm]
      exact Move.outside_of_plain (isPlain_of_isInert (isInert_of_isBlank hx) _ _ _)
    have hrest := ih (h.advance 1) hm hw (by rw [after_advance, ha]; rfl)
    rw [advance_advance, Nat.add_comm] at hrest
    exact .head hstep hrest

/-- A comment that the line ends makes no difference to what is found behind it. -/
theorem ScanState.outcome_run_leave (h : InWhole n s) (hm : s.stack.mode = .lineComment)
    (hend : ∀ x ∈ s.cursor.after.head?, x = '\n') (t : Text) :
    (run (whole n) s.leave).outcome t = (run (whole n) s).outcome t := by
  have hleave : InWhole n s.leave := ⟨h.stop, h.closedAt?⟩
  cases ha : s.cursor.after with
  | nil =>
    rw [h.run_eq_of_after .refl ha, hleave.run_eq_of_after .refl ha, outcome, outcome]
    have htext : s.leave.openText t = s.openText t := by
      rw [openText, openText, hm]
      rfl
    rw [htext]
    rfl
  | cons x r =>
    obtain rfl : x = '\n' := hend x (by rw [ha]; rfl)
    have hst : Steps (whole n) s (s.leave.advance 1) := by
      refine h.steps_of_moveAt (m := .leave 1) ha ?_
      unfold moveAt Move.next
      rw [hm]
      rfl
    have hst' : Walks (whole n) s.leave (s.leave.advance 1) :=
      hleave.walks_blanks (w := ['\n']) rfl (by simp; decide) ha
    rw [run_eq_of_steps hst, run_eq_of_walks hst']

/-- What is before a place of a scan. -/
theorem ScanState.before_eq_take (hw : Walks (whole t.length) (Scan.start t 0) s) :
    s.cursor.before = (t.take s.cursor.pos).reverse := by
  have both := hw.keeps (P := fun s => InWhole t.length s ∧
      s.cursor.before.reverse ++ s.cursor.after = t) (fun {s u} hst ⟨hin, hs⟩ => ?_)
    ⟨inWhole_start t, rfl⟩
  · have hsplit : s.cursor.before.reverse ++ s.cursor.after =
        t.take s.cursor.pos ++ s.cursor.after := by
      rw [both.2, after_eq_drop hw, List.take_append_drop]
    rw [← List.append_cancel_right hsplit, List.reverse_reverse]
  obtain ⟨x, rest, -, rfl⟩ := hin.steps hst
  refine ⟨hin.apply _, ?_⟩
  rw [Move.cursor_apply, Cursor.before_skip, Cursor.after_skip, List.reverse_append,
    List.reverse_reverse, List.append_assoc, List.take_append_drop]
  exact hs

/-! ### Cutting a closing tag out -/

/-- What a cut out of a text must not disturb: no tag is cut short at offset `p`, nothing is read
across the cut from `a` to `b`, and each `<` behind it is told as before. -/
structure CutsCleanly (t : Text) (p a b : Nat) : Prop where
  script : ∀ s, Arrives t p s → contextOf s.stack.frames = .script
  arrives : ∃ s, Arrives (t.take a ++ t.drop b) a s
  invites : ∀ k, b ≤ k → t[k]? = some '<' →
    opensMarkup (t.take a ++ t.slice b k).reverse (t.drop (k + 1)) =
      opensMarkup (t.take k).reverse (t.drop (k + 1))

/-- Behind the cut each `<` is told as before, whatever stands between. -/
theorem CutsCleanly.invites_behind {before tail w r : Text} {a : Nat}
    (h : CutsCleanly (before ++ tail) p a before.length) (ht : tail = w ++ '<' :: r) :
    opensMarkup (w.reverse ++ ((before ++ tail).take a).reverse) r =
      opensMarkup (w.reverse ++ before.reverse) r := by
  have htext : before ++ tail = before ++ w ++ '<' :: r := by rw [ht, List.append_assoc]
  have hlt : (before ++ tail)[(before ++ w).length]? = some '<' := by rw [htext]; simp
  have hbetween : (before ++ tail).slice before.length (before ++ w).length = w := by
    rw [Text.slice, htext, List.take_left, List.drop_left]
  have hbehind : (before ++ tail).drop ((before ++ w).length + 1) = r := by
    rw [htext, ← List.drop_drop, List.drop_left]
    rfl
  have hupto : (before ++ tail).take (before ++ w).length = before ++ w := by
    rw [htext, List.take_left]
  have hsame := h.invites (before ++ w).length (by simp) hlt
  rwa [hbetween, hbehind, hupto, List.reverse_append, List.reverse_append] at hsame

/-- A scan that comes to a place in script, and from before it, comes to it in no other way. -/
theorem script_of_steps (hw : Walks (whole t.length) (Scan.start t 0) s)
    (hst : Steps (whole t.length) s s') (hlt : s.cursor.pos < p) (hpos : s'.cursor.pos = p)
    (hs' : contextOf s'.stack.frames = .script) :
    ∀ u, Arrives t p u → contextOf u.stack.frames = .script := by
  intro u hu
  have hin := (inWhole_start t).walks hw
  have hsu : Walks (whole t.length) s u := (hw.total hu.walks).resolve_right fun hus => by
    have := Walks.pos_le hus hu.inWhole
    rw [hu.pos] at this
    omega
  obtain rfl | ⟨v, hv, hvu⟩ := Relation.ReflTransGen.cases_head hsu
  · exact absurd hu.pos hlt.ne
  obtain rfl := Option.some.inj (hv.symm.trans hst)
  obtain rfl | ⟨v', hv', hvu'⟩ := Relation.ReflTransGen.cases_head hvu
  · exact hs'
  -- from script the scan goes on, so it is past the place
  have hin' := hin.walks (.single hst)
  obtain ⟨x, rest, ha, rfl⟩ := hin'.steps hv'
  have hlength : 0 < (v.moveAt x rest).length := Move.length_next_pos_of_script hs'
  have hle := Walks.pos_le hvu' (hin'.apply _)
  rw [Move.cursor_apply, Cursor.pos_skip, ha, List.length_cons, hu.pos] at hle
  omega

/-- A closing tag that nothing is open for changes nothing but the issues. -/
theorem ScanState.closeTag_of_nothing {name : Text} {stop : Nat}
    (hsplit : splitAtTag? name s.stack.frames = none)
    (htop : ∀ f ∈ s.stack.frames.head?, f.kind = .bracket) :
    s.closeTag name stop = s.report ⟨.unmatched (.tag name), s.cursor.pos, some stop⟩ := by
  unfold closeTag
  rw [hsplit]
  cases hf : s.stack.frames with
  | nil => rfl
  | cons f fs =>
    have hk : f.kind = .bracket := htop f (by rw [hf]; rfl)
    simp [hk]

/-- A place at offset `p` from which the scan of `t` ends as from its beginning, and which is as
another one, but for the offset. -/
structure Resumes (t : Text) (p : Nat) (s u : ScanState) : Prop where
  inWhole : InWhole t.length u
  outcome : (run (whole t.length) u).outcome t = Scan.ofText t
  stack : u.stack = s.stack
  issues : u.issues = s.issues
  pos : u.cursor.pos = p
  before : u.cursor.before = (t.take p).reverse
  after : u.cursor.after = t.drop p

section

variable {head w r tail : Text} {s₀ v e : ScanState} {k : Nat}

/-- Where a text is cut behind blanks, both scans have come to the place before them alike. If it is
in a comment that the line ends, the comment ends behind the cut as well. -/
theorem exists_resumes (h : Arrives (head ++ w ++ r) (head ++ w).length s)
    (hd : Departs (head ++ w ++ r) (head ++ w).length) (hm : s.stack.mode = .normal) (hr : r ≠ [])
    (hw : ∀ x ∈ w, isBlank x = true) (hline : w = [] ∨ ∀ x ∈ tail.head?, x = '\n')
    (he : Arrives (head ++ tail) head.length e) :
    ∃ s₀ u, Arrives (head ++ w ++ r) head.length s₀ ∧ Precedes s₀ s ∧
      Resumes (head ++ tail) head.length s u := by
  obtain ⟨s₀, h₀, hs₀⟩ := h.exists_before_blanks hw hd (.inl hm)
  have hd₀ : Departs (head ++ w ++ r) head.length := by
    cases w with
    | nil => simpa using hd
    | cons x w =>
      refine departs_of_ne_lt (y := x) (by simp) ?_
      rintro rfl
      cases hw '<' List.mem_cons_self
  have hsplit : head ++ w ++ r = head ++ (w ++ r) := List.append_assoc head w r
  obtain ⟨u, hu, halong⟩ :=
    Arrives.along_of_arrives (hsplit ▸ hd₀) (by simp [hr]) (hsplit ▸ h₀) he
  refine ⟨s₀, { u with stack := s.stack }, h₀, hs₀,
    { inWhole := ⟨hu.inWhole.stop, hu.inWhole.closedAt?⟩
      outcome := ?_
      stack := rfl
      issues := halong.issues.symm.trans hs₀.issues
      pos := hu.pos
      before := (before_eq_take hu.walks).trans (by rw [hu.pos])
      after := (after_eq_drop hu.walks).trans (by rw [hu.pos]) }⟩
  rw [← Walks.outcome_run hu.walks]
  rcases hs₀.stack with he | ⟨hcomment, he⟩
  · rw [← he, halong.stack]
  rw [he, halong.stack]
  refine outcome_run_leave hu.inWhole (halong.stack ▸ hcomment) ?_ _
  rw [halong.right]
  rcases hline with rfl | hline
  · have hsame : s = s₀ := hd.eq h (by simpa using h₀)
    rw [← hsame, hm] at hcomment
    cases hcomment
  · exact hline

/-- Behind the cut both scans go on alike, if each `<` is told as before. -/
theorem Resumes.parallel (hu : Resumes (head ++ tail) head.length s u)
    (h₀ : Arrives t head.length s₀) (hs₀ : Precedes s₀ s) (hm : s.stack.mode = .normal)
    (hstack : v.stack = s.stack) (hissues : v.issues = s.issues)
    (hpos : v.cursor.pos = head.length + k) (hafter : v.cursor.after = tail)
    (hinvites : ∀ w r, tail = w ++ '<' :: r →
      opensMarkup (w.reverse ++ head.reverse) r = opensMarkup (w.reverse ++ v.cursor.before) r) :
    Parallel (Spliced head.length k 0) id [] tail v u := by
  have hframes : s₀.stack.frames = s.stack.frames := by
    rcases hs₀.stack with he | ⟨-, he⟩
    · rw [he]
    · rw [he]
      rfl
  have hkept : ∀ x < head.length, Spliced head.length k 0 x x := fun x hx => .inl ⟨hx, rfl⟩
  exact
    { frames := by
        rw [hstack, hu.stack, ← hframes]
        exact List.forall₂_same.mpr fun f hf =>
          .refl (hkept _ (h₀.pos ▸ (h₀.walks.orderly.nested.bounds f hf).2))
      mode := by rw [hstack, hu.stack]
      quote := by rw [hstack, hu.stack]
      begun := fun hne => absurd (hstack ▸ hm) hne
      issues := by
        rw [hissues, hu.issues, ← hs₀.issues]
        exact List.forall₂_same.mpr fun i hi =>
          .refl_of_before hkept (h₀.pos ▸ before_of_mem_issues h₀.walks i hi)
      left := ⟨[], .inl ⟨rfl, rfl⟩, by rw [hafter, List.append_nil]⟩
      right := ⟨[], .inl ⟨rfl, rfl⟩, by rw [hu.after, List.drop_left, List.append_nil]⟩
      offset := fun j _ => by
        rw [hpos, hu.pos]
        exact .inr (by omega)
      before := fun w r hsplit => by
        rw [hu.before, List.take_left, List.append_nil]
        exact (hinvites w r hsplit).symm }

end

namespace FirstFault

variable {name closer head w w' tail : Text} {i : Issue}

/-- A closing tag that nothing is open for can be cut out, with blanks around it, if nothing is
disturbed by that. -/
theorem retains_cut (h : FirstFault t s name n [] i)
    (hsplit : splitAtTag? name s.stack.frames = none)
    (htop : ∀ f ∈ s.stack.frames.head?, f.kind = .bracket)
    (ht : t = head ++ w ++ (closer ++ w' ++ tail)) (hpos : (head ++ w).length = s.cursor.pos)
    (hc : closer ≠ []) (hn : closer.length = n)
    (hw : ∀ x ∈ w, isBlank x = true) (hw' : ∀ x ∈ w', isBlank x = true)
    (hline : w = [] ∨ ∀ x ∈ tail.head?, x = '\n')
    (hcut : CutsCleanly t s.cursor.pos head.length
      (head.length + (w ++ (closer ++ w')).length)) :
    Retains (·.eraseP Issue.isAboutClosingTag) t (head ++ tail) := by
  have hwhole : t = head ++ (w ++ (closer ++ w')) ++ tail := by rw [ht]; simp
  have htake : t.take head.length = head := by rw [ht, List.append_assoc, List.take_left]
  have hdrop : t.drop (head.length + (w ++ (closer ++ w')).length) = tail := by
    rw [hwhole, ← List.length_append, List.drop_left]
  obtain ⟨e, he⟩ := hcut.arrives
  rw [htake, hdrop] at he
  have hd : Departs t (head ++ w).length := hpos ▸ departs_of_script hcut.script
  have harrives : Arrives t (head ++ w).length s := ⟨h.walks, hpos.symm⟩
  obtain ⟨s₀, u, h₀, hs₀, hu⟩ := exists_resumes (r := closer ++ w' ++ tail) (ht ▸ harrives)
    (ht ▸ hd) h.mode (by simp [hc]) hw hline he
  rw [← ht] at h₀
  have hmoved : ({ (Move.closeTag name n).apply s with issues := [] ++ s.issues } : ScanState) =
      s.advance n := by
    rw [Move.apply, closeTag_of_nothing hsplit htop]
    rfl
  have hafter : s.cursor.after = closer ++ (w' ++ tail) := by
    rw [after_eq_drop h.walks, ← hpos, ht, List.drop_left, List.append_assoc]
  have hover : s.cursor.Over (closer ++ w') ((s.advance n).advance w'.length).cursor := by
    rw [advance_advance, cursor_advance, ← hn, ← List.length_append]
    exact Cursor.over_skip (by rw [hafter, List.append_assoc])
  have hblanks : Walks (whole t.length) (s.advance n) ((s.advance n).advance w'.length) :=
    (h.inWhole.advance n).walks_blanks h.mode hw'
      (by rw [after_advance, hafter, ← hn, List.drop_left])
  have halign := aligns_spliced head (w ++ (closer ++ w')) [] tail
  rw [← hwhole, List.append_nil] at halign
  refine h.retains (v := (s.advance n).advance w'.length) (by rw [hmoved]; exact hblanks)
    hu.inWhole hu.outcome halign (biUnique_spliced _ _ _) (k := tail)
    (hu.parallel h₀ hs₀ h.mode rfl rfl ?_ ?_ fun w₀ r hr => ?_)
  · rw [hover.pos, ← hpos]
    simp only [List.length_append]
    omega
  · have hsame := hover.after
    rw [hafter, ← List.append_assoc, List.append_cancel_left_eq] at hsame
    exact hsame.symm
  · have hbefore : ((s.advance n).advance w'.length).cursor.before =
        (head ++ (w ++ (closer ++ w'))).reverse := by
      rw [hover.before, before_eq_take h.walks, ← hpos, ht, List.take_left]
      simp
    rw [← List.length_append, hwhole] at hcut
    have hsame := hcut.invites_behind hr
    rwa [← hwhole, htake, ← hbefore] at hsame

end FirstFault

/-! ### Where a text is cut -/

namespace Text

/-- Before an offset its line begins, behind a newline or with the text. -/
theorem lineStart_cases (t : Text) (i : Nat) : t.lineStart i = 0 ∨
    ∃ q l, t.take i = q ++ '\n' :: l ∧ t.lineStart i = q.length + 1 := by
  have hstart : t.lineStart i = (t.take i).length -
      ((t.take i).reverse.takeWhile (· != '\n')).length := rfl
  have hsplit := (List.takeWhile_append_dropWhile (p := (· != '\n')) (l := (t.take i).reverse)).symm
  have hhead := List.head?_dropWhile_not (· != '\n') (t.take i).reverse
  generalize (t.take i).reverse.takeWhile (· != '\n') = l at hstart hsplit
  generalize (t.take i).reverse.dropWhile (· != '\n') = r at hsplit hhead
  have hlength := congrArg List.length hsplit
  rw [List.length_append, List.length_reverse] at hlength
  cases r with
  | nil =>
    rw [List.length_nil] at hlength
    exact .inl (by omega)
  | cons x q =>
    obtain rfl : x = '\n' := by simpa using hhead
    rw [List.length_cons] at hlength
    refine .inr ⟨q.reverse, l.reverse, ?_, by rw [List.length_reverse]; omega⟩
    rw [← List.reverse_reverse (t.take i), hsplit]
    simp

end Text

namespace Repair

/-- The offsets between which a text is cut when the closing tag between two offsets is dropped. -/
def cutAround (t : Text) (i j : Nat) : Nat × Nat :=
  if Text.allBlank (t.slice (t.lineStart i) i ++ t.slice j (t.lineEnd j)) then
    (t.lineStart i - 1, t.lineEnd j)
  else (i, j)

theorem dropToken_eq (t : Text) (i j : Nat) :
    dropToken t i j = t.take (cutAround t i j).1 ++ t.drop (cutAround t i j).2 := by
  unfold dropToken cutAround
  dsimp only
  split <;> rfl

/-- A closing tag is cut out alone, or with blanks around it up to the end of its line. -/
theorem exists_cutAround (pre closer post : Text) :
    ∃ head w w' tail, pre = head ++ w ∧ post = w' ++ tail ∧
      cutAround (pre ++ (closer ++ post)) pre.length (pre ++ closer).length =
        (head.length, head.length + (w ++ (closer ++ w')).length) ∧
      (∀ x ∈ w, isBlank x = true) ∧ (∀ x ∈ w', isBlank x = true) ∧
      (w = [] ∨ ∀ x ∈ tail.head?, x = '\n') := by
  have hpre : (pre ++ (closer ++ post)).take pre.length = pre := List.take_left
  have hpost : (pre ++ (closer ++ post)).drop (pre ++ closer).length = post := by
    rw [← List.append_assoc, List.drop_left]
  have hend : (pre ++ (closer ++ post)).lineEnd (pre ++ closer).length =
      (pre ++ closer).length + (post.takeWhile (· != '\n')).length := by
    rw [Text.lineEnd, hpost, Nat.min_eq_left (by simp)]
  have hline := (pre ++ (closer ++ post)).lineStart_cases pre.length
  rw [hpre] at hline
  unfold cutAround
  split
  · next hblank =>
    rw [Text.allBlank, List.all_append, Bool.and_eq_true, hend] at hblank
    obtain ⟨hbefore, hbehind⟩ := hblank
    have hslice : (pre ++ (closer ++ post)).slice (pre ++ closer).length
        ((pre ++ closer).length + (post.takeWhile (· != '\n')).length) =
          post.takeWhile (· != '\n') := by
      rw [Text.slice, List.drop_take, hpost, Nat.add_sub_cancel_left]
      exact List.prefix_iff_eq_take.mp (List.takeWhile_prefix _) |>.symm
    rw [hslice] at hbehind
    have hnewline : ∀ x ∈ (post.dropWhile (· != '\n')).head?, x = '\n' := fun x hx => by
      have := List.head?_dropWhile_not (· != '\n') post
      rw [Option.mem_def.mp hx] at this
      simpa using this
    rw [hend]
    obtain hzero | ⟨q, l, hq, hstart⟩ := hline
    · refine ⟨[], pre, post.takeWhile (· != '\n'), post.dropWhile (· != '\n'), rfl,
        List.takeWhile_append_dropWhile.symm, ?_, ?_, List.all_eq_true.mp hbehind, .inr hnewline⟩
      · rw [hzero]
        simp [Nat.add_assoc]
      · rw [hzero, Text.slice, hpre, List.drop_zero] at hbefore
        exact List.all_eq_true.mp hbefore
    · refine ⟨q, '\n' :: l, post.takeWhile (· != '\n'), post.dropWhile (· != '\n'), hq,
        List.takeWhile_append_dropWhile.symm, ?_, ?_, List.all_eq_true.mp hbehind, .inr hnewline⟩
      · rw [hstart, hq]
        simp [Nat.add_assoc]
        omega
      · have hl : pre.drop (q.length + 1) = l := by
          rw [hq, ← List.drop_drop, List.drop_left]
          rfl
        rw [hstart, Text.slice, hpre, hl] at hbefore
        exact List.forall_mem_cons.mpr ⟨rfl, List.all_eq_true.mp hbefore⟩
  · next hblank =>
    refine ⟨pre, [], [], post, (List.append_nil pre).symm, rfl, ?_, List.forall_mem_nil _,
      List.forall_mem_nil _, .inl rfl⟩
    simp

/-- Dropping the first closing tag that has no opener takes away its issue, and nothing else, if the
cut disturbs nothing. All other issues and all that is left open stay as they are, but for offsets
and lines. -/
theorem retains_dropToken {i : Issue} (h : tagIssue? t = some i) (hk : i.kind = .unmatchedCloser)
    (hj : i.closerEnd? = some j)
    (hcut : CutsCleanly t i.pos (cutAround t i.pos j).1 (cutAround t i.pos j).2) :
    Retains (·.eraseP Issue.isAboutClosingTag) t (dropToken t i.pos j) := by
  obtain ⟨s, name, n, later, i₀, hfault, hsame⟩ := exists_firstFault h
  have hpos := hsame Issue.pos fun i q => i.pos_withOpened q
  have hend := hsame Issue.closerEnd? fun i q => i.closerEnd?_withOpened q
  rw [← hsame Issue.kind fun i q => i.kind_withOpened q] at hk
  rw [hj] at hend
  rw [← hpos] at hcut ⊢
  cases hfault.finds with
  | deeper _ => cases hk
  | other _ _ _ => cases hk
  | nothing hsplit htop =>
    obtain rfl : s.cursor.pos + n = j := Option.some.inj hend
    obtain ⟨pre, closer, post, ht, hc, hpre, hn, -⟩ := hfault.exists_split
    obtain ⟨head, w, w', tail, rfl, rfl, hcutting, hw, hw', hline⟩ :=
      exists_cutAround pre closer post
    have hstop : (head ++ w ++ closer).length = s.cursor.pos + n := by
      rw [List.length_append, hpre, hn]
    rw [List.append_assoc] at ht
    rw [← ht, hpre, hstop] at hcutting
    dsimp only at hcut ⊢
    rw [hcutting] at hcut
    rw [dropToken_eq, hcutting]
    have hwhole : t = head ++ (w ++ (closer ++ w')) ++ tail := by rw [ht]; simp
    have htake : t.take head.length = head := by rw [ht, List.append_assoc, List.take_left]
    have hdrop : t.drop (head.length + (w ++ (closer ++ w')).length) = tail := by
      rw [hwhole, ← List.length_append, List.drop_left]
    dsimp only
    rw [htake, hdrop]
    exact hfault.retains_cut hsplit htop (by rw [ht, List.append_assoc closer]) hpre hc.ne_nil hn hw
      hw' hline hcut

/-- A closing tag without an opener on a line of its own. -/
def orphanOnLine : Text := "a(\n</b>\n<c></c>)".toList

theorem retains_dropToken_ownLine :
    tagIssue? orphanOnLine = some ⟨.unmatched (.tag ['b']), 3, some 7⟩ ∧
      dropToken orphanOnLine 3 7 = "a(\n<c></c>)".toList ∧
      Retains (·.eraseP Issue.isAboutClosingTag) orphanOnLine (dropToken orphanOnLine 3 7) := by
  have hissue : tagIssue? orphanOnLine = some ⟨.unmatched (.tag ['b']), 3, some 7⟩ := by
    decide +kernel
  refine ⟨hissue, by decide +kernel, retains_dropToken hissue rfl rfl ?_⟩
  have hcut : cutAround orphanOnLine 3 7 = (2, 7) := by decide +kernel
  rw [hcut]
  refine ⟨?_, ?_, ?_⟩
  · have hst : Steps (whole 16)
        ((fun s => (next? (whole 16) s).getD s)^[2] (Scan.start orphanOnLine 0))
        ((fun s => (next? (whole 16) s).getD s)^[3] (Scan.start orphanOnLine 0)) := rfl
    exact script_of_steps (walks_iterate (whole 16) (Scan.start orphanOnLine 0) 2) hst
      (by decide +kernel) (by decide +kernel) (by decide +kernel)
  · exact ⟨_, walks_iterate (whole 11) (Scan.start "a(\n<c></c>)".toList 0) 2, by decide +kernel⟩
  · have hinvites : ∀ k < 16, 7 ≤ k → orphanOnLine[k]? = some '<' →
        opensMarkup (orphanOnLine.take 2 ++ orphanOnLine.slice 7 k).reverse
          (orphanOnLine.drop (k + 1)) =
        opensMarkup (orphanOnLine.take k).reverse (orphanOnLine.drop (k + 1)) := by decide +kernel
    exact fun k hk hlt => hinvites k (List.getElem?_eq_some_iff.mp hlt).1 hk hlt

/-- Behind a word the closing tag lets the next `<` open a tag, and without it the `<` is a
comparison. -/
theorem not_retains_dropToken_behindWord :
    tagIssue? "x</b><c></c>".toList = some ⟨.unmatched (.tag ['b']), 1, some 5⟩ ∧
      ¬ Retains (·.eraseP Issue.isAboutClosingTag) "x</b><c></c>".toList
        (dropToken "x</b><c></c>".toList 1 5) := by
  refine ⟨by decide +kernel, ?_⟩
  rintro ⟨ρ, -, hscan⟩
  exact absurd hscan.issues.length_eq (by decide +kernel)

end Repair

end SnippetGate
