import SnippetGate.Proofs.Balance.Cutoff

/-!
# Which bracket ends a block

A block ends where the frame of its brace is closed, and a closing bracket closes the innermost
frame, rightly or not. So the block ends with its own closing brace, or with another closing bracket
that stands where nothing but the brace is open. An issue then names the brace as the opener, and it
is the only one that can.
-/

namespace SnippetGate

/-! ### Brackets that are named as openers -/

/-- A bracket is no tag that is read past its attributes. -/
theorem Issue.opener_of_withOpened {e : Issue} {f : Frame} {p : Nat} (hk : f.kind = .bracket)
    (hf : f ∈ (e.withOpened p).opener?) : f ∈ e.opener? := by
  obtain ⟨cause, pos, stop?⟩ := e
  cases cause with
  | mismatch g closer deeper =>
    simp only [withOpened] at hf
    split at hf
    · next hg =>
      obtain rfl := Option.some.inj hf
      have hkind : g.kind = .bracket := hk
      simp [Frame.isOpening, hkind] at hg
    · exact hf
  | _ => exact hf

theorem Frame.kind_of_isOpening {f : Frame} (h : f.isOpening = true) : f.kind = .tag := by
  rw [isOpening, Bool.and_eq_true] at h
  exact eq_of_beq h.1

namespace ScanState

open Move

variable {o : ScanOptions} {t r : Text} {i j : Nat} {s : ScanState} {f : Frame} {m : Move}

/-- A bracket that is named as an opener was named before, or is closed by this move. -/
theorem named_or_closed_of_apply (hr : m.Reads o t s.cursor.pos s.stack.frames) {e : Issue}
    (he : e ∈ (m.apply s).issues) (hf : f ∈ e.opener?) (hk : f.kind = .bracket) :
    (∃ e' ∈ s.issues, f ∈ e'.opener?) ∨ s.stack.frames = f :: (m.apply s).stack.frames := by
  have old (he : e ∈ s.issues) : (∃ e' ∈ s.issues, f ∈ e'.opener?) ∨
      s.stack.frames = f :: (m.apply s).stack.frames := .inl ⟨e, he, hf⟩
  have tag {P : Prop} {g : Frame} (hg : g.kind = .tag) (hfg : f = g) : P := by
    rw [hfg, hg] at hk
    cases hk
  cases m with
  | closeBracket opener x =>
    rcases closesBracket s opener x with
      ⟨-, -, -, hi⟩ | @⟨top, hframes, -, stop, hi⟩ | ⟨-, stop, hi⟩
    · exact old (hi ▸ he)
    · rw [hi] at he
      rcases List.mem_cons.mp he with rfl | he
      · obtain rfl := Option.some.inj hf
        exact .inr hframes
      · exact old he
    · rw [hi] at he
      rcases List.mem_cons.mp he with rfl | he
      · cases hf
      · exact old he
  | closeTag name n =>
    rcases closesTag s name n with
      ⟨stop, -, htags, -, -, hi⟩ | ⟨stop, -, htag, -, hi⟩ | ⟨stop, -, hi⟩
    · rw [hi] at he
      rcases List.mem_append.mp he with he | he
      · obtain ⟨g, hg, rfl⟩ := List.mem_map.mp (List.mem_reverse.mp he)
        exact tag (htags g (List.mem_append_left _ hg)) (Option.some.inj hf).symm
      · exact old he
    · rw [hi] at he
      rcases List.mem_cons.mp he with rfl | he
      · exact tag htag (Option.some.inj hf).symm
      · exact old he
    · rw [hi] at he
      rcases List.mem_cons.mp he with rfl | he
      · cases hf
      · exact old he
  | beginChildren =>
    simp only [apply, ScanState.advance, ScanState.beginChildren] at he
    split at he
    · exact old he
    · obtain ⟨e', he', rfl⟩ := List.mem_map.mp he
      exact .inl ⟨e', he', Issue.opener_of_withOpened hk hf⟩
  | cutShort top =>
    rcases List.mem_cons.mp he with rfl | he
    · exact tag (Frame.kind_of_isOpening hr.2) (Option.some.inj hf).symm
    · exact old he
  | stray top x =>
    rcases List.mem_cons.mp he with rfl | he
    · exact tag (Frame.kind_of_isOpening hr.2.2.2) (Option.some.inj hf).symm
    · exact old he
  | _ => exact old he

/-- A bracket that an issue names as its opener is closed. -/
theorem not_holds_of_opener (hw : Walks o (Scan.start t i) s) :
    ∀ e ∈ s.issues, ∀ f ∈ e.opener?, f.kind = .bracket → f.pos < s.cursor.pos ∧ ¬ s.Holds f := by
  have key := hw.keeps (P := fun s => Orderly o t i s ∧ ∀ e ∈ s.issues, ∀ f ∈ e.opener?,
    f.kind = .bracket → f.pos < s.cursor.pos ∧ ¬ s.Holds f) (fun {s u} hst ⟨h, hs⟩ => ?_)
    ⟨orderly_start o t i, List.forall_mem_nil _⟩
  · exact key.2
  refine ⟨(h.step hst).2, fun e he f hf hk => ?_⟩
  obtain ⟨x, rest, ha, hstack, hissues⟩ := hst.exists_apply
  rw [hissues] at he
  rcases named_or_closed_of_apply (h.reads ha) he hf hk with ⟨e', he', hf'⟩ | hframes
  · obtain ⟨hpos, hclosed⟩ := hs e' he' f hf' hk
    exact ⟨hpos.trans_le hst.pos_le, not_holds_of_walks h (.single hst) hpos hclosed⟩
  · rw [← hstack] at hframes
    have hgone : s.stack.frames = [f] ++ u.stack.frames := hframes
    have hpos := (h.nested.bounds f (hframes ▸ List.mem_cons_self)).2
    exact ⟨hpos.trans_le hst.pos_le,
      (removes_of_gone h.nested hgone List.mem_cons_self).2⟩

/-! ### The last step of a block -/

/-- Only a closing bracket closes the last open frame, if that is a bracket. -/
theorem exists_closeBracket_of_changes {pos : Nat} {before : List Frame}
    (h : m.Changes pos before []) (hf : before.getLast? = some f) (hk : f.kind = .bracket) :
    before = [f] ∧ ∃ opener x, m = .closeBracket opener x := by
  have hmem : f ∈ before := List.mem_of_getLast? hf
  have empty (he : [] = before) : False := by
    rw [← he] at hmem
    cases hmem
  have tags (htags : ∀ g ∈ before, g.kind = .tag) : False := by
    rw [htags f hmem] at hk
    cases hk
  cases m with
  | closeBracket opener x =>
    obtain ⟨gone, he, hlength, -⟩ := h
    rw [List.append_nil] at he
    subst he
    refine ⟨?_, opener, x, rfl⟩
    match before, hlength, hf with
    | [g], _, hf => exact congrArg (· :: []) (Option.some.inj hf)
  | closeTag name n =>
    obtain ⟨gone, he, htags⟩ := h
    rw [List.append_nil] at he
    exact (tags fun g hg => (htags g (he ▸ hg)).1).elim
  | endTag n =>
    obtain ⟨top, rfl, htop⟩ := h
    exact (tags (List.forall_mem_singleton.mpr (Frame.kind_of_isOpening htop))).elim
  | beginChildren =>
    obtain ⟨top, fs, -, -, he⟩ := h
    cases he
  | cutShort top =>
    obtain ⟨rfl, htop⟩ := h
    exact (tags (List.forall_mem_singleton.mpr (Frame.kind_of_isOpening htop))).elim
  | openBracket x => cases h
  | openTag name phase n => cases h
  | pass n => exact (empty h).elim
  | enter mode quote n => exact (empty h).elim
  | leave n => exact (empty h).elim
  | stray top x => exact (empty h).elim

theorem steps_whole_intoBlock (hr : t.drop i = '{' :: r) :
    Steps (whole t.length) (Scan.start t i) (intoBlock t i) := by
  have hlength := congrArg List.length hr
  rw [List.length_drop, List.length_cons] at hlength
  have hstop : (Scan.start t i).cursor.stop = t.length := by
    have : (Scan.start t i).cursor.stop = i + (t.drop i).length := rfl
    rw [this, List.length_drop]
    omega
  have hin : InWhole t.length (Scan.start t i) := ⟨hstop, rfl⟩
  exact hin.steps_of_moveAt hr (by simp [moveAt, Move.next, Scan.start, Move.outside, Move.inScript,
    ScanOptions.isOpener])

theorem InWhole.move_eq {n : Nat} {x : Char} {rest : Text} (h : InWhole n s)
    (ha : s.cursor.after = x :: rest) : s.move (whole n) x rest = s.moveAt x rest := by
  unfold move moveAt
  rw [second?_of_stop ha (o := whole n) h.stop]
  rfl

/-- The scan of a block comes to its end with nothing but the brace open, and reads a closing bracket
there. -/
theorem exists_last_of_blockEnd? (hr : t.drop i = '{' :: r) (h : t.blockEnd? i = some j) :
    ∃ u opener x, Walks (whole t.length) (Scan.start t i) u ∧ u.stack.mode = .normal ∧
      u.stack.frames = [.bracket '{' i] ∧ t[u.cursor.pos]? = some x ∧ u.cursor.pos + 1 = j ∧
      (whole 0).openerOf? x = some opener ∧
      (t.blockScan i).issues = ((Move.closeBracket opener x).apply u).issues.reverse := by
  obtain ⟨s, hw, hs, hpos⟩ := Text.exists_walksOpen_of_blockEnd? hr h
  have hscan := Text.blockScan_of_walksOpen hr hw hs
  have hbegin : Walks (whole t.length) (Scan.start t i) (intoBlock t i) :=
    .single (steps_whole_intoBlock hr)
  rcases hw.cases_tail with rfl | ⟨u, hu, hne, hst⟩
  · cases hs
  have hwu := hbegin.trans (WalksOpen.walks hu)
  have hin := (Text.inWhole_intoBlock hr).walks (WalksOpen.walks hu)
  have horderly := Walks.orderly hwu
  obtain ⟨x, rest, ha, rfl⟩ := hin.steps hst
  have hreads := horderly.reads ha
  have hchange := Move.changes_apply horderly.nested hreads
  have hfits : (u.moveAt x rest).Fits (whole 0) u.stack x := Move.fits_next
  rw [hin.move_eq ha] at hreads hchange
  rw [hs] at hchange
  -- the outermost frame has been the brace all the time
  have hlast := WalksOpen.getLast? hu hbegin rfl rfl hne
  obtain ⟨hframes, opener, x', hmove⟩ := exists_closeBracket_of_changes hchange hlast rfl
  rw [hmove] at hreads hfits hpos hscan
  have hlt : u.cursor.after ≠ [] := by rw [ha]; exact List.cons_ne_nil x rest
  obtain rfl : x' = x := by
    have hx := hreads.1
    rw [← List.head?_drop, ← horderly.after, ha] at hx
    exact (Option.some.inj hx).symm
  refine ⟨u, opener, x', hwu, hfits.1, hframes, hreads.1, ?_, hfits.2, by rw [hscan]⟩
  rw [Move.cursor_apply, Cursor.pos_skip, ha] at hpos
  rw [← hpos]
  simp [Move.length]

/-- A closing bracket that meets a bracket alone is reported unless it is the right one. -/
theorem issues_closeBracket {opener x y : Char} {p : Nat} (hf : s.stack.frames = [.bracket y p]) :
    ((Move.closeBracket opener x).apply s).issues = if y = opener then s.issues else
      ⟨.mismatch (.bracket y p) (.bracket x) false, s.cursor.pos, some (s.cursor.pos + 1)⟩ ::
        s.issues := by
  have hown : (Frame.bracket y p).kind = .bracket ∧ (Frame.bracket y p).token = [opener] ↔
      y = opener := by simp [Frame.bracket]
  simp only [Move.apply, ScanState.advance, ScanState.closeBracket, hf, hown]
  split <;> rfl

end ScanState

open ScanState

/-- The closing brace at offset `j` closes the brace at offset `i`: the scan from there comes to it
outside of strings and comments, with nothing but that brace open. -/
def Text.Closes (t : Text) (i j : Nat) : Prop :=
  t[j]? = some '}' ∧ ∃ s, Walks (whole t.length) (Scan.start t i) s ∧ s.cursor.pos = j ∧
    s.stack.mode = .normal ∧ s.stack.frames = [.bracket '{' i]

/-- A block ends behind the closing brace of its own brace if no issue of its scan names that brace as
an opener. If one does, it is the last one, and the block ends behind a closing bracket of another
kind that met the brace. -/
theorem Text.closes_of_blockEnd {t : Text} {p e : Nat} (hp : t[p]? = some '{')
    (he : t.blockEnd? p = some e) :
    p < e ∧ e ≤ t.length ∧
      (t.Closes p (e - 1) ↔ ∀ i ∈ (t.blockScan p).issues, i.opener? ≠ some (.bracket '{' p)) ∧
      (¬ t.Closes p (e - 1) → ∃ x, (x = ')' ∨ x = ']') ∧ t[e - 1]? = some x ∧
        (t.blockScan p).issues.getLast? =
          some ⟨.mismatch (.bracket '{' p) (.bracket x) false, e - 1, some e⟩) := by
  obtain ⟨hlt, hbrace⟩ := List.getElem?_eq_some_iff.mp hp
  have hr : t.drop p = '{' :: t.drop (p + 1) := by
    rw [List.drop_eq_getElem_cons hlt, hbrace]
  obtain ⟨u, opener, x, hw, hmode, hframes, hx, rfl, hopener, hissues⟩ :=
    exists_last_of_blockEnd? hr he
  rw [Nat.add_sub_cancel, hissues, issues_closeBracket hframes]
  refine ⟨Nat.lt_succ_of_le (Walks.orderly hw).begun, (List.getElem?_eq_some_iff.mp hx).1, ?_⟩
  by_cases hown : '{' = opener
  · obtain rfl : x = '}' := by simpa [Grammar.IsPair, ← hown] using isPair_of_openerOf? hopener
    have hcloses : t.Closes p u.cursor.pos := ⟨hx, u, hw, rfl, hmode, hframes⟩
    rw [if_pos hown]
    refine ⟨iff_of_true hcloses fun i hi hi' => ?_, absurd hcloses⟩
    -- the brace is still open, so no issue has named it
    refine (not_holds_of_opener hw i (List.mem_reverse.mp hi) _ hi' rfl).2 ?_
    exact ⟨_, hframes ▸ List.mem_cons_self, .refl _⟩
  · have hother : x = ')' ∨ x = ']' := by
      have := isPair_of_openerOf? hopener
      simp only [Grammar.IsPair, Ne.symm hown, false_and, or_false] at this
      exact this.imp And.right And.right
    have hcloses : ¬ t.Closes p u.cursor.pos := by
      rintro ⟨hx', -⟩
      obtain rfl := Option.some.inj (hx.symm.trans hx')
      simp at hother
    rw [if_neg hown, List.reverse_cons, List.getLast?_concat]
    refine ⟨iff_of_false hcloses fun h => ?_, fun _ => ⟨x, hother, hx, rfl⟩⟩
    exact h _ (List.mem_append_right _ List.mem_cons_self) rfl

/-- A block whose brace meets a closing parenthesis. -/
def metByParenthesis : Text := "\x7b)".toList

theorem Text.closes_of_blockEnd_metByParenthesis :
    metByParenthesis.blockEnd? 0 = some 2 ∧ ¬ metByParenthesis.Closes 0 1 := by
  have hend : metByParenthesis.blockEnd? 0 = some 2 := by decide +kernel
  obtain ⟨-, -, hiff, -⟩ := Text.closes_of_blockEnd (by decide) hend
  refine ⟨hend, fun h => ?_⟩
  have hissue : (metByParenthesis.blockScan 0).issues =
      [⟨.mismatch (.bracket '{' 0) (.bracket ')') false, 1, some 2⟩] := by decide +kernel
  exact hiff.mp h _ (hissue ▸ List.mem_cons_self) rfl

end SnippetGate
