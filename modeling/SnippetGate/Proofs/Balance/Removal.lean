import SnippetGate.Proofs.Balance.Nesting

/-!
# What removes an open frame

A step that removes a frame accounts for it. The closer of the frame stood there, or an issue of
the step names the frame as its opener, and never both. This is read off the moves one by one,
after what brackets, closing tags and the ends of opening tags do to the frames.
-/

namespace SnippetGate

/-! ### Frames and their closers -/

namespace Frame

/-- Both are the same delimiter, though one may be read farther than the other. -/
def IsSame (f g : Frame) : Prop := f.kind = g.kind ∧ f.token = g.token ∧ f.pos = g.pos

variable {f g h : Frame}

theorem IsSame.refl (f : Frame) : f.IsSame f := ⟨rfl, rfl, rfl⟩

theorem IsSame.trans (hf : f.IsSame g) (hg : g.IsSame h) : f.IsSame h :=
  ⟨hf.1.trans hg.1, hf.2.1.trans hg.2.1, hf.2.2.trans hg.2.2⟩

end Frame

/-- The closer is the one that the frame asks for. -/
def Closer.IsOf (o : ScanOptions) (f : Frame) : Closer → Prop
  | .bracket x => f.kind = .bracket ∧ ∃ opener, o.openerOf? x = some opener ∧ f.token = [opener]
  | .tag name => f.kind = .tag ∧ f.token = name

/-- The text begins with what closes the frame rightly: with the end of a tag that has no content
while its attributes are read, and with the closer of the frame otherwise. -/
def Frame.EndsAt (o : ScanOptions) (after : Text) (f : Frame) : Prop :=
  if f.isOpening then ['/', '>'] <+: after ∨ ['>'] <+: after ∧ isVoid f.token = true
  else ∃ c : Closer, ∃ piece, c.IsWritten o piece ∧ c.IsOf o f ∧ piece <+: after

/-- The issue is that the frame met a closer that is not its own, or another tag. -/
def Issue.Blames (f : Frame) (e : Issue) : Prop :=
  (e.kind = .mismatch ∨ e.kind = .unterminatedTag) ∧ ∃ g ∈ e.opener?, f.IsSame g

/-- Two closing tags at the same place have the same name. -/
theorem IsClosingTag.name_unique {name name' piece piece' t : Text} (h : IsClosingTag name piece)
    (h' : IsClosingTag name' piece') (ht : piece <+: t) (ht' : piece' <+: t) : name = name' := by
  obtain ⟨rest, hrest, rfl⟩ := h
  obtain ⟨rest', hrest', rfl⟩ := h'
  obtain ⟨r, rfl⟩ := ht
  obtain ⟨r', hr'⟩ := ht'
  have heq : rest' ++ r' = rest ++ r := by simpa using hr'
  have hread := closingTagRest?_eq_some_iff.mpr ⟨rest, r, hrest, rfl, rfl⟩
  have hread' := closingTagRest?_eq_some_iff.mpr ⟨rest', r', hrest', heq.symm, rfl⟩
  exact (Prod.mk.inj (Option.some.inj (hread.symm.trans hread'))).1

namespace ScanState

/-- The frame is open here. -/
def Holds (s : ScanState) (f : Frame) : Prop := ∃ g ∈ s.stack.frames, f.IsSame g

/-- The frame is open at the first place and no more at the second. -/
def Removes (s u : ScanState) (f : Frame) : Prop := s.Holds f ∧ ¬ u.Holds f

/-- Between the two places an issue with this property is reported. -/
def Reports (s u : ScanState) (P : Issue → Prop) : Prop :=
  ∃ found, u.issues = found ++ s.issues ∧ ∃ e ∈ found, P e

end ScanState

/-! ### What a closer does -/

namespace ScanState

variable {o : ScanOptions} {s : ScanState}

/-- A closing bracket closes its own opener, or reports the innermost frame and closes it, or
reports that nothing is open. -/
inductive ClosesBracket (opener x : Char) (s u : ScanState) : Prop
  | own {top : Frame} (frames : s.stack.frames = top :: u.stack.frames)
      (kind : top.kind = .bracket) (token : top.token = [opener]) (issues : u.issues = s.issues)
  | other {top : Frame} (frames : s.stack.frames = top :: u.stack.frames)
      (differs : ¬ (top.kind = .bracket ∧ top.token = [opener])) (stop : Nat)
      (issues : u.issues = ⟨.mismatch top (.bracket x) false, s.cursor.pos, some stop⟩ :: s.issues)
  | nothing (frames : s.stack.frames = u.stack.frames) (stop : Nat)
      (issues : u.issues = ⟨.unmatched (.bracket x), s.cursor.pos, some stop⟩ :: s.issues)

theorem closesBracket (s : ScanState) (opener x : Char) :
    ClosesBracket opener x s ((Move.closeBracket opener x).apply s) := by
  simp only [Move.apply, ScanState.advance, ScanState.closeBracket]
  split
  · exact .nothing rfl _ rfl
  · next top fs hf =>
    have hpop : s.stack.frames = top :: s.pop.stack.frames := by
      simp [ScanState.pop, BracketStack.pop, hf]
    split
    · next hown => exact .own hpop hown.1 hown.2 rfl
    · next hother => exact .other hpop hother _ rfl

/-- A closing tag closes its own opener and reports the tags inside of it, or reports the innermost
tag and closes it, or reports that no tag is open here. -/
inductive ClosesTag (name : Text) (s u : ScanState) : Prop
  | own {inner : List Frame} {top : Frame} (stop : Nat)
      (frames : s.stack.frames = (inner ++ [top]) ++ u.stack.frames)
      (tags : ∀ f ∈ inner ++ [top], f.kind = .tag) (token : top.token = name)
      (differ : ∀ f ∈ inner, f.token ≠ name)
      (issues : u.issues = (inner.map fun f =>
        (⟨.mismatch f (.tag name) true, s.cursor.pos, some stop⟩ : Issue)).reverse ++ s.issues)
  | other {top : Frame} (stop : Nat) (frames : s.stack.frames = top :: u.stack.frames)
      (kind : top.kind = .tag) (differs : top.token ≠ name)
      (issues : u.issues = ⟨.mismatch top (.tag name) false, s.cursor.pos, some stop⟩ :: s.issues)
  | nothing (stop : Nat) (frames : s.stack.frames = u.stack.frames)
      (issues : u.issues = ⟨.unmatched (.tag name), s.cursor.pos, some stop⟩ :: s.issues)

theorem closesTag (s : ScanState) (name : Text) (n : Nat) :
    ClosesTag name s ((Move.closeTag name n).apply s) := by
  simp only [Move.apply, ScanState.advance, ScanState.closeTag]
  split
  · next inner outer hsplit =>
    obtain ⟨own, he, hown, htags, hdiffer⟩ := splitAtTag?_spec hsplit
    exact .own _ (by rw [he]; simp) htags hown hdiffer rfl
  · next hsplit =>
    split
    · exact .nothing _ rfl rfl
    · next top fs hf =>
      split
      · next hk =>
        refine .other _ (by simp [ScanState.pop, BracketStack.pop, ScanState.report, hf]) hk ?_ rfl
        rintro rfl
        simp [hf, splitAtTag?, hk] at hsplit
      · exact .nothing _ rfl rfl

end ScanState

/-! ### Where tags end -/

namespace Move

/-- What stands where a move ends the innermost tag or gives it up. -/
def Ends (frames : List Frame) (x : Char) (y : Option Char) : Move → Prop
  | endTag _ => x = '/' ∧ y = some '>' ∨ x = '>' ∧ ∀ top ∈ frames.head?, isVoid top.token = true
  | cutShort _ => x = '<'
  | _ => True

variable {o : ScanOptions} {x : Char} {y : Option Char} {rest : Text}

theorem opening_ends (frames : List Frame) (rest : Text) : (opening rest).Ends frames x y := by
  unfold opening
  split <;> trivial

theorem closing_ends (frames : List Frame) (rest : Text) : (closing rest).Ends frames x y := by
  unfold closing
  split <;> trivial

theorem inMarkup_ends (frames : List Frame) : (inMarkup x y rest).Ends frames x y := by
  unfold inMarkup
  split
  · trivial
  split
  · split
    · exact closing_ends _ _
    split
    · exact opening_ends _ _
    · trivial
  · trivial

theorem inAttrs_ends (top : Frame) (fs : List Frame) :
    (inAttrs o top x y).Ends (top :: fs) x y := by
  unfold inAttrs
  split
  · trivial
  split
  · trivial
  split
  · next h => exact .inl h
  split
  · next hx =>
    split
    · next hv => exact .inr ⟨hx, fun _ h => Option.some.inj h ▸ hv⟩
    · trivial
  split
  · next hx => exact hx
  split <;> trivial

theorem inScript_ends (frames : List Frame) (invited : Bool) :
    (inScript o invited x y rest).Ends frames x y := by
  unfold inScript
  split
  · trivial
  split
  · trivial
  split
  · trivial
  split
  · trivial
  split
  · trivial
  split
  · split
    · exact closing_ends _ _
    split
    · exact opening_ends _ _
    · trivial
  · trivial

theorem next_ends (stack : BracketStack) (invited : Bool) :
    (next o stack invited x y rest).Ends stack.frames x y := by
  unfold next
  split
  · unfold inString
    repeat' split
    all_goals trivial
  · unfold inLineComment
    split <;> trivial
  · unfold inBlockComment
    split <;> trivial
  unfold outside
  split
  · exact inScript_ends _ _
  next top fs hf =>
  rw [hf]
  split
  · split
    · exact inScript_ends _ _
    · exact inAttrs_ends top fs
    · exact inMarkup_ends _
  · exact inScript_ends _ _

end Move

/-! ### What ends where a closer stands -/

namespace Frame

variable {o : ScanOptions} {f : Frame} {x : Char} {rest : Text}

theorem endsAt_bracket_iff (hf : f.kind = .bracket) :
    f.EndsAt o (x :: rest) ↔ ∃ opener, o.openerOf? x = some opener ∧ f.token = [opener] := by
  have hopen : f.isOpening = false := by simp [isOpening, hf]
  rw [EndsAt, hopen, if_neg Bool.false_ne_true]
  constructor
  · rintro ⟨c, piece, hw, hof, hp⟩
    cases c with
    | bracket z =>
      obtain ⟨rfl, -⟩ := hw
      obtain rfl : z = x := (List.cons_prefix_cons.mp hp).1
      exact hof.2
    | tag name => simp [hof.1] at hf
  · rintro ⟨opener, ho, htoken⟩
    exact ⟨.bracket x, [x], ⟨rfl, Option.isSome_of_eq_some ho⟩, ⟨hf, opener, ho, htoken⟩,
      List.cons_prefix_cons.mpr ⟨rfl, List.nil_prefix⟩⟩

theorem endsAt_tag_iff {name piece after : Text} (hf : f.kind = .tag) (hopen : f.isOpening = false)
    (hw : IsClosingTag name piece) (hp : piece <+: after) :
    f.EndsAt o after ↔ f.token = name := by
  rw [EndsAt, hopen, if_neg Bool.false_ne_true]
  constructor
  · rintro ⟨c, piece', hw', hof, hp'⟩
    cases c with
    | bracket z => simp [hof.1] at hf
    | tag name' => exact hof.2.trans (hw'.name_unique hw hp' hp)
  · exact fun htoken => ⟨.tag name, piece, hw, ⟨hf, htoken⟩, hp⟩

theorem endsAt_opening_iff (hopen : f.isOpening = true) : f.EndsAt o (x :: rest) ↔
    x = '/' ∧ rest.head? = some '>' ∨ x = '>' ∧ isVoid f.token = true := by
  rw [EndsAt, if_pos hopen]
  cases rest with
  | nil => simp [List.cons_prefix_cons, eq_comm (a := x)]
  | cons y rest => simp [List.cons_prefix_cons, eq_comm (a := x), eq_comm (a := y)]

end Frame

/-! ### What removes a frame -/

namespace ScanState

open Move

variable {o : ScanOptions} {t : Text} {i : Nat} {s u : ScanState} {f g : Frame} {x : Char}
  {rest : Text}

/-- What a step that removes a frame did with it: its closer stood there, or an issue names it as
the opener, and not both. -/
def Resolves (o : ScanOptions) (s u : ScanState) (f : Frame) : Prop :=
  Xor (∃ g ∈ s.stack.frames, f.IsSame g ∧ g.EndsAt o s.cursor.after)
    (s.Reports u (Issue.Blames f))

/-- A step as the move it makes. -/
theorem Steps.exists_move (h : Steps o s u) : s.closedAt? = none ∧
    ∃ x rest, s.cursor.after = x :: rest ∧
      (u = (s.move o x rest).apply s ∨ u = ((s.move o x rest).apply s).noteBalance o) := by
  rw [Steps, next?] at h
  split at h
  · cases h
  next hover =>
  refine ⟨by simpa using (not_or.mp hover).1, ?_⟩
  split at h
  · cases h
  next x rest ha =>
  obtain rfl := Option.some.inj h
  refine ⟨x, rest, ha, ?_⟩
  rw [step_eq_apply]
  split
  · exact .inr rfl
  · exact .inl rfl

/-- A step as the move it makes, to what is open and what is reported. -/
theorem Steps.exists_apply (h : Steps o s u) : ∃ x rest, s.cursor.after = x :: rest ∧
    u.stack = ((s.move o x rest).apply s).stack ∧
    u.issues = ((s.move o x rest).apply s).issues := by
  obtain ⟨-, x, rest, ha, rfl | rfl⟩ := h.exists_move
  · exact ⟨x, rest, ha, rfl, rfl⟩
  · exact ⟨x, rest, ha, stack_noteBalance _ _, issues_noteBalance _ _⟩

theorem Steps.pos_le (h : Steps o s u) : s.cursor.pos ≤ u.cursor.pos := by
  obtain ⟨-, x, rest, -, rfl | rfl⟩ := h.exists_move
  · rw [cursor_apply]
    exact Cursor.pos_le_pos_skip _ _
  · rw [cursor_noteBalance, cursor_apply]
    exact Cursor.pos_le_pos_skip _ _

/-- Frames that stay open are not removed. -/
theorem not_removes_of_subset (h : s.stack.frames ⊆ u.stack.frames) : ¬ s.Removes u f :=
  fun hrem => hrem.2 (hrem.1.imp fun _ hg => ⟨h hg.1, hg.2⟩)

/-- A frame that is removed is among those that are gone. -/
theorem Removes.mem_gone {gone : List Frame} (hrem : s.Removes u f)
    (he : s.stack.frames = gone ++ u.stack.frames) (hg : g ∈ s.stack.frames) (hfg : f.IsSame g) :
    g ∈ gone := by
  rw [he] at hg
  exact (List.mem_append.mp hg).resolve_right fun hu => hrem.2 ⟨g, hu, hfg⟩

/-- Frames that are gone are removed, as no two of them stand at one offset. -/
theorem removes_of_gone {gone : List Frame} (hn : Nested o t i s.cursor.pos s.stack.frames)
    (he : s.stack.frames = gone ++ u.stack.frames) (hg : g ∈ gone) : s.Removes u g := by
  refine ⟨⟨g, he ▸ List.mem_append_left _ hg, .refl g⟩, fun ⟨k, hk, hgk⟩ => ?_⟩
  have hlt := (List.pairwise_append.mp (he ▸ hn.ordered)).2.2 g hg k hk
  exact absurd hgk.2.2 hlt.ne'

theorem resolves_of_endsAt {found : List Issue} (hg : g ∈ s.stack.frames) (hfg : f.IsSame g)
    (he : g.EndsAt o s.cursor.after) (hi : u.issues = found ++ s.issues)
    (hb : ∀ e ∈ found, ¬ e.Blames f) : Resolves o s u f := by
  refine .inl ⟨⟨g, hg, hfg, he⟩, ?_⟩
  rintro ⟨found', hfound, e, hmem, hblames⟩
  obtain rfl : found' = found := List.append_cancel_right (hfound.symm.trans hi)
  exact hb e hmem hblames

theorem resolves_of_blames {found : List Issue} {e : Issue} (hi : u.issues = found ++ s.issues)
    (he : e ∈ found) (hb : e.Blames f)
    (hn : ∀ g ∈ s.stack.frames, f.IsSame g → ¬ g.EndsAt o s.cursor.after) : Resolves o s u f :=
  .inr ⟨⟨found, hi, e, he, hb⟩, fun ⟨g, hg, hfg, hends⟩ => hn g hg hfg hends⟩

/-- If the innermost frame alone is gone, it is the one that is removed. -/
theorem Removes.eq_top {top : Frame} (hrem : s.Removes u f)
    (hf : s.stack.frames = top :: u.stack.frames) (hg : g ∈ s.stack.frames) (hfg : f.IsSame g) :
    g = top :=
  List.mem_singleton.mp (hrem.mem_gone (show _ = [top] ++ _ from hf) hg hfg)

/-- One frame goes, and its closer stands there. -/
theorem Removes.resolves_own {top : Frame} (hrem : s.Removes u f)
    (hf : s.stack.frames = top :: u.stack.frames) (hi : u.issues = s.issues)
    (he : top.EndsAt o s.cursor.after) : Resolves o s u f := by
  obtain ⟨g, hg, hfg⟩ := hrem.1
  obtain rfl := hrem.eq_top hf hg hfg
  exact resolves_of_endsAt hg hfg he (hi.trans (List.nil_append _).symm) (List.forall_mem_nil _)

/-- One frame goes, and it is reported. -/
theorem Removes.resolves_other {top : Frame} {e : Issue} (hrem : s.Removes u f)
    (hf : s.stack.frames = top :: u.stack.frames) (hi : u.issues = e :: s.issues)
    (hk : e.kind = .mismatch ∨ e.kind = .unterminatedTag) (ho : e.opener? = some top)
    (he : ¬ top.EndsAt o s.cursor.after) : Resolves o s u f := by
  obtain ⟨g, hg, hfg⟩ := hrem.1
  refine resolves_of_blames (show _ = [e] ++ _ from hi) List.mem_cons_self
    ⟨hk, top, ho, hrem.eq_top hf hg hfg ▸ hfg⟩ fun g' hg' hfg' => ?_
  rwa [hrem.eq_top hf hg' hfg']

theorem resolves_closeBracket {opener : Char} (ha : s.cursor.after = x :: rest)
    (hopener : o.openerOf? x = some opener)
    (htop : ∀ top ∈ s.stack.frames.head?, top.kind = .bracket) (hu : ClosesBracket opener x s u)
    (hrem : s.Removes u f) : Resolves o s u f := by
  have hends {top : Frame} (hf : s.stack.frames = top :: u.stack.frames) :
      top.EndsAt o s.cursor.after ↔ top.token = [opener] := by
    rw [ha, Frame.endsAt_bracket_iff (htop top (by rw [hf]; rfl)), hopener]
    simp
  cases hu with
  | own hf hk htoken hi => exact hrem.resolves_own hf hi ((hends hf).mpr htoken)
  | other hf hdiffers stop hi =>
    refine hrem.resolves_other hf hi (.inl rfl) rfl fun he => hdiffers ⟨?_, (hends hf).mp he⟩
    exact htop _ (by rw [hf]; rfl)
  | nothing hf => exact absurd hrem (not_removes_of_subset (fun _ hg => hf ▸ hg))

theorem resolves_closeTag {name piece : Text} (hn : Nested o t i s.cursor.pos s.stack.frames)
    (hw : IsClosingTag name piece) (hp : piece <+: s.cursor.after)
    (htop : ∀ top ∈ s.stack.frames.head?, top.isOpening = false) (hu : ClosesTag name s u)
    (hrem : s.Removes u f) : Resolves o s u f := by
  -- The tags that go are read past their attributes, as the innermost is.
  have hends {gone : List Frame} (he : s.stack.frames = gone ++ u.stack.frames)
      (hk : ∀ f ∈ gone, f.kind = .tag) (g : Frame) (hg : g ∈ gone) :
      g.EndsAt o s.cursor.after ↔ g.token = name := by
    refine Frame.endsAt_tag_iff (hk g hg) ?_ hw hp
    have hphase := Nested.children_of_tags (he ▸ hn) (he ▸ htop) hk g hg
    simp [Frame.isOpening, hphase]
  cases hu with
  | @own inner top stop hf hk htoken hdiffer hi =>
    obtain ⟨g, hg, hfg⟩ := hrem.1
    rcases List.mem_append.mp (hrem.mem_gone hf hg hfg) with hmem | hmem
    · refine resolves_of_blames hi (List.mem_reverse.mpr (List.mem_map_of_mem hmem))
        ⟨.inl rfl, g, rfl, hfg⟩ fun g' hg' hfg' he' => ?_
      have htoken' := (hends hf hk g' (hrem.mem_gone hf hg' hfg')).mp he'
      exact hdiffer g hmem (hfg.2.1.symm.trans (hfg'.2.1.trans htoken'))
    · obtain rfl := List.mem_singleton.mp hmem
      refine resolves_of_endsAt hg hfg
        ((hends hf hk g (List.mem_append_right _ hmem)).mpr htoken) hi fun e he hb => ?_
      obtain ⟨k, hk, rfl⟩ := List.mem_map.mp (List.mem_reverse.mp he)
      obtain ⟨-, k', hk', hfk⟩ := hb
      obtain rfl : k = k' := Option.some.inj hk'
      exact hdiffer k hk (hfk.2.1.symm.trans (hfg.2.1.trans htoken))
  | @other top stop hf hk hdiffers hi =>
    refine hrem.resolves_other hf hi (.inl rfl) rfl ?_
    have hgone : s.stack.frames = [top] ++ u.stack.frames := hf
    rwa [hends hgone (List.forall_mem_singleton.mpr hk) top List.mem_cons_self]
  | nothing stop hf => exact absurd hrem (not_removes_of_subset (fun _ hg => hf ▸ hg))

/-- A move that removes a frame resolves what becomes of it. -/
theorem Orderly.resolves_apply (h : Orderly o t i s) (ha : s.cursor.after = x :: rest)
    (hrem : s.Removes ((s.move o x rest).apply s) f) :
    Resolves o s ((s.move o x rest).apply s) f := by
  have hr := h.reads ha
  have hends : (s.move o x rest).Ends s.stack.frames x (second? o s rest) := next_ends _ _
  have hx {c : Char} (hc : t[s.cursor.pos]? = some c) : x = c := by
    rw [← List.head?_drop, ← h.after, ha] at hc
    exact Option.some.inj hc
  have hpop {top : Frame} (ht : s.stack.frames.head? = some top) :
      s.stack.frames = top :: s.stack.frames.tail := by
    obtain ⟨fs, hf⟩ := List.head?_eq_some_iff.mp ht
    rw [hf, List.tail_cons]
  have hkeeps {u : ScanState} (hsub : s.stack.frames ⊆ u.stack.frames) (hrem : s.Removes u f) :
      Resolves o s u f := absurd hrem (not_removes_of_subset hsub)
  generalize s.move o x rest = m at hr hends hrem
  cases m with
  | pass n => exact hkeeps (List.Subset.refl _) hrem
  | enter mode quote n => exact hkeeps (List.Subset.refl _) hrem
  | leave n => exact hkeeps (List.Subset.refl _) hrem
  | openBracket c => exact hkeeps (List.subset_cons_self _ _) hrem
  | openTag name phase n => exact hkeeps (List.subset_cons_self _ _) hrem
  | closeBracket opener c =>
    obtain ⟨hc, hopener, htop⟩ := hr
    obtain rfl := hx hc
    exact resolves_closeBracket ha hopener htop (closesBracket s opener x) hrem
  | closeTag name n =>
    refine resolves_closeTag h.nested hr.1 ?_ hr.2 (closesTag s name n) hrem
    rw [h.after, Text.slice, List.drop_take]
    exact List.take_prefix _ _
  | endTag n =>
    obtain ⟨top, htop, hopen⟩ := hr
    refine hrem.resolves_own (hpop htop) rfl ?_
    rw [ha, Frame.endsAt_opening_iff hopen]
    refine hends.imp (And.imp_right fun hy => ?_) (And.imp_right fun hv => hv top htop)
    rw [second?] at hy
    split at hy
    · exact hy
    · cases hy
  | beginChildren =>
    obtain ⟨top, fs, hf, -, hu⟩ := changes_apply h.nested hr
    obtain ⟨g, hg, hfg⟩ := hrem.1
    refine absurd ?_ hrem.2
    rw [Holds, hu]
    rw [hf] at hg
    rcases List.mem_cons.mp hg with rfl | hg
    · exact ⟨_, List.mem_cons_self, hfg⟩
    · exact ⟨g, List.mem_cons_of_mem _ hg, hfg⟩
  | cutShort top =>
    obtain ⟨htop, hopen⟩ := hr
    refine hrem.resolves_other (hpop htop) rfl (.inr rfl) rfl ?_
    rw [ha, Frame.endsAt_opening_iff hopen]
    obtain rfl : x = '<' := hends
    simp
  | stray top c => exact hkeeps (List.Subset.refl _) hrem

theorem Orderly.resolves (h : Orderly o t i s) (hst : Steps o s u) (hrem : s.Removes u f) :
    Resolves o s u f := by
  obtain ⟨x, rest, ha, hstack, hissues⟩ := hst.exists_apply
  have hrem' : s.Removes ((s.move o x rest).apply s) f := by
    rwa [Removes, Holds, Holds, ← hstack]
  have key := h.resolves_apply ha hrem'
  rwa [Resolves, Reports, ← hissues] at key

end ScanState

end SnippetGate
