import SnippetGate.Proofs.Repair.TagIssue

/-!
# Pairs of tags are mended one by one

A closing tag that meets another opener is mended in one of two ways. If it closes tags farther out,
the closing tag of the innermost one is put before it; else it gets the name of the innermost tag.
Behind the mended tag the scan has the same frames as before, and it has found the same but for one
issue. So after enough steps all issues about closing tags are gone, and all others are left.
-/

namespace SnippetGate

open ScanState

variable {ρ : Nat → Nat → Prop} {t : Text} {s u v : ScanState} {name name' closer closer' r : Text}
  {f : Frame} {inner outer fs : List Frame} {later : List Issue} {i : Issue} {n : Nat}

/-! ### Reading closing tags -/

namespace ScanState

/-- All tags that a scan has open stand in the text with their names. -/
theorem named_of_walks (hw : Walks (whole t.length) (Scan.start t 0) s) :
    ∀ f ∈ s.stack.frames, f.Named t := by
  have both := hw.keeps (P := fun s => Walks (whole t.length) (Scan.start t 0) s ∧
      ∀ f ∈ s.stack.frames, f.Named t) (fun {s u} hst ⟨hs, h⟩ => ?_) ⟨.refl, List.forall_mem_nil _⟩
  · exact both.2
  obtain ⟨x, rest, ha, rfl⟩ := ((inWhole_start t).walks hs).steps hst
  exact ⟨hs.tail hst, Move.named_apply (Move.next_names (after_eq_drop hs ▸ ha)) h⟩

/-- The closing tag of an open tag is written as one. -/
theorem isClosingTag_closerOf (hw : Walks (whole t.length) (Scan.start t 0) s)
    (hf : f ∈ s.stack.frames) (hk : f.kind = .tag) :
    IsClosingTag f.token (Repair.closerOf f) :=
  isClosingTag_display ((named_of_walks hw f hf hk).imp_right (·.1))

/-- Past the innermost tag the same tags are closed. -/
theorem splitAtTag?_tail (h : splitAtTag? name s.stack.frames = some (f :: inner, outer)) :
    splitAtTag? name s.pop.stack.frames = some (inner, outer) := by
  obtain ⟨own, hframes, -, htags, hdiffer⟩ := splitAtTag?_spec h
  have hf : s.stack.frames = f :: (inner ++ own :: outer) := hframes
  rw [hf, splitAtTag?, if_neg (by rw [htags f (by simp)]; decide),
    if_neg (hdiffer f List.mem_cons_self)] at h
  obtain ⟨⟨inner', outer'⟩, hrest, he⟩ := Option.map_eq_some_iff.mp h
  obtain ⟨rfl, rfl⟩ := by simpa using he
  simpa [ScanState.pop, BracketStack.pop, hf] using hrest

theorem closeTag_of_other (h : splitAtTag? name s.stack.frames = none)
    (hf : s.stack.frames = f :: fs) (hk : f.kind = .tag) (stop : Nat) : s.closeTag name stop =
      (s.report ⟨.mismatch f (.tag name) false, s.cursor.pos, some stop⟩).pop := by
  unfold closeTag
  rw [h, hf]
  exact if_pos hk

end ScanState

/-- A tag that is read past its attributes holds markup. -/
theorem Frame.context_of_closed {f : Frame} (hk : f.kind = .tag) (ho : f.isOpening = false) :
    f.context = .markup := by
  have hphase : f.phase ≠ .attrs := by simpa [Frame.isOpening, hk] using ho
  simp [Frame.context, hk, hphase]

/-! ### Going on behind the mended tag -/

theorem Along.corresponds {a v v' : Text} (h : Along a v v' s u)
    (hw : Walks (whole t.length) (Scan.start t 0) s) (hm : s.stack.mode = .normal)
    (hρ : ∀ x < s.cursor.pos, ρ x x) : s.Corresponds ρ id u := by
  have hs := corresponds_of_walks hw hm hρ
  exact ⟨h.stack ▸ hs.frames, by rw [h.stack], by rw [h.stack], fun hne => absurd hm hne,
    h.issues ▸ hs.issues⟩

/-! ### One step -/

namespace FirstFault

/-- The scan of a text in which another closing tag stands in the same place comes to it too. -/
theorem exists_along {pre post : Text} (h : FirstFault t s name n later i)
    (ht : t = pre ++ closer ++ post) (hpre : pre.length = s.cursor.pos)
    (hc : IsClosingTag name closer) (hc' : IsClosingTag name' closer') (post' : Text) :
    ∃ u, Arrives (pre ++ closer' ++ post') pre.length u ∧ u.cursor.after = closer' ++ post' ∧
      u.cursor.pos = s.cursor.pos ∧ u.stack = s.stack ∧
        (∀ ρ : Nat → Nat → Prop, (∀ x < s.cursor.pos, ρ x x) → s.Corresponds ρ id u) := by
  obtain ⟨rest, -, rfl⟩ := hc
  obtain ⟨rest', -, rfl⟩ := hc'
  have hsplit (p q : Text) : pre ++ '<' :: '/' :: p ++ q = pre ++ '<' :: ('/' :: p ++ q) := by simp
  rw [hsplit] at ht
  have hs : Arrives (pre ++ '<' :: ('/' :: rest ++ post)) pre.length s :=
    ⟨ht ▸ h.walks, hpre.symm⟩
  obtain ⟨u, hu, halong⟩ := hs.along (v := '/' :: rest' ++ post') rfl (by decide)
  exact ⟨u, hsplit rest' post' ▸ hu, halong.right, halong.pos.symm, halong.stack.symm,
    fun ρ hρ => halong.corresponds h.walks h.mode hρ⟩

/-- Below the innermost tag there is markup. -/
theorem contextOf_top (h : FirstFault t s name n later i) (hf : s.stack.frames = f :: fs)
    (hk : f.kind = .tag) : contextOf s.stack.frames = .markup := by
  have htop := h.reads.2 f (by rw [hf]; rfl)
  rw [hf, contextOf_cons]
  exact Frame.context_of_closed hk htop

/-- A closing tag that closes nothing gets the name of the innermost tag. -/
theorem retains_rename (h : FirstFault t s name n later i)
    (hsplit : splitAtTag? name s.stack.frames = none) (hf : s.stack.frames = f :: fs)
    (hk : f.kind = .tag) (hlater : later = [])
    (hi : i = ⟨.mismatch f (.tag name) false, s.cursor.pos, some (s.cursor.pos + n)⟩) :
    Retains (·.eraseP Issue.isAboutClosingTag) t (Repair.mendTag t i) := by
  obtain ⟨pre, closer, post, rfl, hc, hpre, hn, hafter⟩ := h.exists_split
  have hc' := isClosingTag_closerOf h.walks (hf ▸ List.mem_cons_self) hk
  have hmend : Repair.mendTag (pre ++ closer ++ post) i = pre ++ Repair.closerOf f ++ post := by
    have hend : s.cursor.pos + n = (pre ++ closer).length := by rw [List.length_append, hpre, hn]
    subst hi
    simp only [Repair.mendTag, Issue.opener?, Issue.closesDeeper, Option.getD_some,
      Bool.false_eq_true, if_false]
    rw [hend, List.drop_left, ← hpre, List.append_assoc pre, List.take_left]
  rw [hmend]
  obtain ⟨u, hu, hafter', hpos, hstack, hcorr⟩ := h.exists_along rfl hpre hc hc' post
  have hst := hu.inWhole.steps_closingTag (hstack ▸ h.mode)
    (hstack ▸ h.contextOf_top hf hk ▸ nofun) hc' hafter'
  rw [closeTag_of_top (hstack ▸ hf) hk] at hst
  have hmoved : ({ (Move.closeTag name n).apply s with issues := later ++ s.issues } : ScanState) =
      s.pop.advance closer.length := by
    rw [Move.apply, closeTag_of_other hsplit hf hk, hlater, List.nil_append, hn]
    rfl
  have hw := hu.walks.tail hst
  refine h.retains .refl ((inWhole_start _).walks hw) (Walks.outcome_run hw)
    (aligns_spliced pre closer (Repair.closerOf f) post) (biUnique_spliced _ _ _) (k := post)
    (hmoved ▸ ?_)
  have hsu : s.Corresponds (Spliced pre.length closer.length (Repair.closerOf f).length) id u :=
    hcorr _ fun x hx => .inl ⟨hpre ▸ hx, rfl⟩
  refine hsu.pop.parallel_behind_tags hc hc' hafter hafter' fun j _ => .inr ?_
  simp only [cursor_pop, hpos]
  omega

/-- Below a tag that a closing tag closes on the way there is markup. -/
theorem contextOf_below (h : FirstFault t s name n later i)
    (hsplit : splitAtTag? name s.stack.frames = some (f :: inner, outer)) :
    contextOf s.pop.stack.frames = .markup := by
  obtain ⟨own, hframes, -, htags, -⟩ := splitAtTag?_spec hsplit
  have hf : s.stack.frames = f :: (inner ++ [own]) ++ outer := by simp [hframes]
  have hchildren : ∀ g ∈ f :: (inner ++ [own]), g.phase = .children :=
    Nested.children_of_tags (hf ▸ h.walks.orderly.nested) (hf ▸ h.reads.2) (by simpa using htags)
  have hmarkup {g : Frame} (hg : g ∈ inner ++ [own]) : g.context = .markup := by
    refine Frame.context_of_closed (htags g (by simpa using .inr (by simpa using hg))) ?_
    simp [Frame.isOpening, hchildren g (List.mem_cons_of_mem f hg)]
  have hpop : s.pop.stack.frames = inner ++ own :: outer := by
    simp [ScanState.pop, BracketStack.pop, hframes]
  rw [hpop]
  cases inner with
  | nil => exact hmarkup (by simp)
  | cons g inner => exact hmarkup (by simp)

/-- Where a closing tag closes tags farther out, the closing tag of the innermost one is put before
it. -/
theorem retains_insert (h : FirstFault t s name n later i)
    (hsplit : splitAtTag? name s.stack.frames = some (f :: inner, outer))
    (hlater : later = (inner.map fun f =>
      (⟨.mismatch f (.tag name) true, s.cursor.pos, some (s.cursor.pos + n)⟩ : Issue)).reverse)
    (hi : i = ⟨.mismatch f (.tag name) true, s.cursor.pos, some (s.cursor.pos + n)⟩) :
    Retains (·.eraseP Issue.isAboutClosingTag) t (Repair.mendTag t i) := by
  obtain ⟨own, hf, -, htags, -⟩ := splitAtTag?_spec hsplit
  have hk : f.kind = .tag := htags f (by simp)
  obtain ⟨pre, closer, post, rfl, hc, hpre, hn, hafter⟩ := h.exists_split
  have hc' := isClosingTag_closerOf h.walks (hf ▸ List.mem_append_left _ List.mem_cons_self) hk
  have hmend : Repair.mendTag (pre ++ closer ++ post) i =
      pre ++ Repair.closerOf f ++ (closer ++ post) := by
    subst hi
    simp only [Repair.mendTag, Issue.opener?, Issue.closesDeeper, if_true]
    rw [← hpre, List.append_assoc pre, List.take_left, List.drop_left]
  rw [hmend]
  obtain ⟨u, hu, hafter', hpos, hstack, hcorr⟩ := h.exists_along rfl hpre hc hc' (closer ++ post)
  have hst := hu.inWhole.steps_closingTag (hstack ▸ h.mode)
    (hstack ▸ h.contextOf_top hf hk ▸ nofun) hc' hafter'
  rw [closeTag_of_top (hstack ▸ hf) hk] at hst
  -- the closing tag is read behind the new one, under the frames that are left
  have hafter'' : (u.pop.advance (Repair.closerOf f).length).cursor.after = closer ++ post := by
    rw [after_advance, cursor_pop, hafter', List.drop_left]
  have hcontext : contextOf u.pop.stack.frames ≠ .attrs := by
    rw [ScanState.pop, hstack]
    exact h.contextOf_below hsplit ▸ nofun
  have hmode : u.stack.mode = .normal := hstack ▸ h.mode
  have hst' := (hu.inWhole.walks (.single hst)).steps_closingTag hmode hcontext hc hafter''
  have hmoved : ({ (Move.closeTag name n).apply s with issues := later ++ s.issues } : ScanState) =
      (s.pop.closeTag name (s.pop.cursor.pos + closer.length)).advance closer.length := by
    rw [Move.apply, closeTag_of_split hsplit, closeTag_of_split (splitAtTag?_tail hsplit), hlater,
      hn]
    rfl
  have hposu : (u.pop.advance (Repair.closerOf f).length).cursor.pos =
      s.cursor.pos + (Repair.closerOf f).length := by
    rw [cursor_advance, cursor_pop, (Cursor.over_skip hafter').pos, hpos]
  have halign := aligns_spliced pre [] (Repair.closerOf f) (closer ++ post)
  rw [List.append_nil, ← List.append_assoc pre closer, List.length_nil] at halign
  have hw := (hu.walks.tail hst).tail hst'
  refine h.retains .refl ((inWhole_start _).walks hw) (Walks.outcome_run hw) halign
    (biUnique_spliced _ _ _) (k := post) (hmoved ▸ ?_)
  have hcorr' : s.pop.Corresponds (Spliced pre.length 0 (Repair.closerOf f).length) id
      (u.pop.advance (Repair.closerOf f).length) :=
    { (hcorr _ fun x hx => .inl ⟨hpre ▸ hx, rfl⟩).pop with }
  refine (hcorr'.closeTag Function.injective_id ?_ rfl closer.length).parallel_behind_tags hc hc
    (by rw [cursor_closeTag]; exact hafter) (by rw [cursor_closeTag]; exact hafter'')
    fun j _ => .inr ?_
  · rw [hposu, cursor_pop]
    exact .inr (by omega)
  · rw [cursor_closeTag, cursor_closeTag, hposu, cursor_pop]
    omega

end FirstFault

namespace Repair

/-- A step that mends a mismatch takes away this issue, and nothing else. -/
theorem retains_mendTag (h : tagIssue? t = some i) (hk : i.kind = .mismatch) :
    Retains (·.eraseP Issue.isAboutClosingTag) t (mendTag t i) := by
  obtain ⟨s, name, n, later, i₀, hfault, hsame⟩ := exists_firstFault h
  rw [← hsame (mendTag t) (mendTag_withOpened t)]
  rw [← hsame Issue.kind fun i q => i.kind_withOpened q] at hk
  cases hfault.finds with
  | deeper hsplit => exact hfault.retains_insert hsplit rfl rfl
  | other hsplit hf htag => exact hfault.retains_rename hsplit hf htag rfl rfl
  | nothing => cases hk

/-! ### All steps -/

theorem retains_mendTags (n : Nat) (t : Text)
    (hkind : ∀ i ∈ (Scan.ofText t).issues, i.isAboutClosingTag = true → i.kind = .mismatch)
    (hcount : (Scan.ofText t).issues.countP Issue.isAboutClosingTag ≤ n) :
    Retains (·.filter (!Issue.isAboutClosingTag ·)) t (mendTags n t) := by
  have hnone (t : Text) (h : ∀ i ∈ (Scan.ofText t).issues, ¬ i.isAboutClosingTag = true) :
      Retains (·.filter (!Issue.isAboutClosingTag ·)) t t :=
    Retains.self (List.filter_eq_self.mpr fun i hi => by simpa using h i hi)
  induction n generalizing t with
  | zero => exact hnone t (List.countP_eq_zero.mp (Nat.le_zero.mp hcount))
  | succ n ih =>
    rw [mendTags]
    cases hissue : tagIssue? t with
    | none => exact hnone t (List.find?_eq_none.mp hissue)
    | some i =>
      have hmem : i ∈ (Scan.ofText t).issues := List.mem_of_find?_eq_some hissue
      have hstep := retains_mendTag hissue (hkind i hmem (List.find?_some hissue))
      have hchanged : mendTag t i ≠ t := fun he => by
        have hlength := hstep.length_succ hissue
        rw [he] at hlength
        exact absurd hlength (Nat.succ_ne_self _)
      have hkind' := hstep.kind_of_mem (p := (· = .mismatch)) hkind
      have hcount' := hstep.countP_succ hissue
      dsimp only
      rw [if_neg hchanged]
      exact hstep.trans_filter (ih _ hkind' (by omega))

/-- Mending pairs of tags takes away the mismatches of closing tags, and nothing else. A step takes
away one of them, and as many steps as there are of them take away all, if there are no closing tags
without an opener. All other issues and all that is left open stay as they are, but for offsets and
lines. -/
theorem mendTagPairs_mends (cfg : Settings) (t : Text) :
    (∀ i, tagIssue? t = some i → i.kind ≠ .unmatchedCloser →
      Retains (·.eraseP Issue.isAboutClosingTag) t (mendTag t i) ∧
        (Scan.ofText (mendTag t i)).issues.length + 1 = (Scan.ofText t).issues.length) ∧
    ((∀ i ∈ (Scan.ofText t).issues, i.isAboutClosingTag = true → i.kind ≠ .unmatchedCloser) →
      (Scan.ofText t).issues.countP Issue.isAboutClosingTag ≤ cfg.maxTagFixes →
      ∃ t', (mendTagPairs cfg).action t = .ok t' ∧
        Retains (·.filter (!Issue.isAboutClosingTag ·)) t t') := by
  have hmismatch {i : Issue} (habout : i.isAboutClosingTag = true)
      (hkind : i.kind ≠ .unmatchedCloser) : i.kind = .mismatch := by
    obtain ⟨cause, pos, stop⟩ := i
    cases cause with
    | unmatched c => exact absurd rfl hkind
    | mismatch f c deeper => rfl
    | _ => cases habout
  refine ⟨fun i hi hkind => ?_, fun hkind hcount => ?_⟩
  · have hstep := retains_mendTag hi (hmismatch (List.find?_some hi) hkind)
    exact ⟨hstep, hstep.length_succ hi⟩
  · exact ⟨_, rfl, retains_mendTags _ t (fun i hi habout => hmismatch habout (hkind i hi habout))
      (by omega)⟩

/-- A tag that is not closed before the one around it, and one that is closed by another name. -/
theorem mendTagPairs_mends_skippedAndRenamed :
    (∃ t', (mendTagPairs .standard).action "(<a><b></a><c></d>)".toList = .ok t' ∧
      Retains (·.filter (!Issue.isAboutClosingTag ·)) "(<a><b></a><c></d>)".toList t') ∧
      mendTags 8 "(<a><b></a><c></d>)".toList = "(<a><b></b></a><c></c>)".toList ∧
      ∃ i, tagIssue? "(<a><b></a><c></d>)".toList = some i ∧
        Retains (·.eraseP Issue.isAboutClosingTag) "(<a><b></a><c></d>)".toList
          "(<a><b></b></a><c></d>)".toList := by
  obtain ⟨hstep, hall⟩ := mendTagPairs_mends .standard "(<a><b></a><c></d>)".toList
  refine ⟨hall (by decide +kernel) (by decide +kernel), by decide +kernel,
    ⟨.mismatch ⟨.tag, ['b'], 4, .children⟩ (.tag ['a']) true, 7, some 11⟩, by decide +kernel, ?_⟩
  exact (hstep ⟨.mismatch ⟨.tag, ['b'], 4, .children⟩ (.tag ['a']) true, 7, some 11⟩
    (by decide +kernel) (by decide)).1

end Repair

end SnippetGate
