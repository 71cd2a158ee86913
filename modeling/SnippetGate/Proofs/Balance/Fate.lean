import SnippetGate.Proofs.Balance.Removal

/-!
# What becomes of what a walk opens

Every frame that a walk opens meets one of three fates, and no other. It is closed by its own
closer, or it is closed in a step that reports an issue with the frame as its opener, or it is
still open where the walk ends. A closer that is read as one closes a frame of its own or an issue
is reported about it. So nothing opens or closes without a word, for all options and wherever the
walk starts.
-/

namespace SnippetGate

/-! ### Fates -/

/-- What can become of a frame. -/
inductive Fate where
  /-- Its own closer closes it. -/
  | closed
  /-- It is closed, and an issue names it as the opener. -/
  | reported
  /-- It is still open at the end. -/
  | unclosed
  deriving DecidableEq, Repr

namespace ScanState

/-- The closer stands here, outside of strings and comments, where it is read as one: a bracket in
script, and a whole closing tag in script or in markup. A character that begins a string or a
comment, or opens a bracket, is no closer. -/
inductive ReadsCloser (o : ScanOptions) (s : ScanState) : Closer → Prop
  | bracket {x : Char} {rest : Text} (mode : s.stack.mode = .normal)
      (script : o.tracksTags = true → s.stack.context = .script)
      (after : s.cursor.after = x :: rest) (quote : x ≠ '\x22' ∧ x ≠ '\x27' ∧ x ≠ '\x60')
      (comment : x = '/' → second? o s rest ≠ some '/' ∧ second? o s rest ≠ some '*')
      (opener : o.isOpener x = false) (closer : (o.openerOf? x).isSome = true) :
      ReadsCloser o s (.bracket x)
  | tag {name piece : Text} (mode : s.stack.mode = .normal) (tracked : o.tracksTags = true)
      (content : s.stack.context ≠ .attrs)
      (angle : s.stack.context = .script → o.isOpener '<' = false ∧ o.openerOf? '<' = none)
      (after : piece <+: s.cursor.after) (written : IsClosingTag name piece)
      (inside : s.cursor.pos + 1 < o.limit) : ReadsCloser o s (.tag name)

end ScanState

/-- The fate of a frame in the scan of a text from offset `i`. -/
def Scan.Meets (t : Text) (i : Nat) (o : ScanOptions) (f : Frame) : Fate → Prop
  | .closed => ∃ s u, ScanState.Walks o (start t i) s ∧ ScanState.Steps o s u ∧ s.Removes u f ∧
      ∃ g ∈ s.stack.frames, f.IsSame g ∧ g.EndsAt o s.cursor.after
  | .reported => ∃ s u, ScanState.Walks o (start t i) s ∧ ScanState.Steps o s u ∧
      s.Removes u f ∧ s.Reports u (Issue.Blames f) ∧
      ∃ e ∈ (ofTextWith t i o).issues, e.Blames f
  | .unclosed => ∃ g ∈ (ofTextWith t i o).unclosed, f.IsSame g

/-! ### Issues that stay -/

namespace Issue

theorem Blames.withOpened {f : Frame} {e : Issue} (h : e.Blames f) (p : Nat) :
    (e.withOpened p).Blames f := by
  refine ⟨by rw [kind_withOpened]; exact h.1, ?_⟩
  obtain ⟨g, hg, hfg⟩ := h.2
  obtain ⟨cause, pos, stop⟩ := e
  cases cause with
  | mismatch k c deeper =>
    obtain rfl : k = g := Option.some.inj hg
    simp only [Issue.withOpened]
    split
    · exact ⟨{ k with phase := .children }, rfl, hfg⟩
    · exact ⟨k, rfl, hfg⟩
  | _ => exact ⟨g, hg, hfg⟩

end Issue

namespace ScanState

open Move

variable {o : ScanOptions} {t : Text} {i : Nat} {s u v w : ScanState} {f g : Frame} {x : Char}
  {y : Option Char} {rest : Text}

/-- Whatever an issue keeps when its opener is read farther, an issue has to the end of the walk. -/
theorem exists_issue_apply {P : Issue → Prop} (hP : ∀ e p, P e → P (e.withOpened p)) (m : Move)
    (h : ∃ e ∈ s.issues, P e) : ∃ e ∈ (m.apply s).issues, P e := by
  have more (found : List Issue) : ∃ e ∈ found ++ s.issues, P e :=
    h.imp fun e he => ⟨List.mem_append_right found he.1, he.2⟩
  cases m with
  | closeBracket opener x =>
    rcases closesBracket s opener x with ⟨-, -, -, hi⟩ | ⟨-, -, stop, hi⟩ | ⟨-, stop, hi⟩
    · exact hi ▸ h
    · exact hi ▸ more [_]
    · exact hi ▸ more [_]
  | closeTag name n =>
    rcases closesTag s name n with
      ⟨stop, -, -, -, -, hi⟩ | ⟨stop, -, -, -, hi⟩ | ⟨stop, -, hi⟩
    · exact hi ▸ more _
    · exact hi ▸ more [_]
    · exact hi ▸ more [_]
  | beginChildren =>
    simp only [apply, ScanState.advance, ScanState.beginChildren]
    split
    · exact h
    · obtain ⟨e, he, hPe⟩ := h
      exact ⟨e.withOpened _, List.mem_map_of_mem he, hP e _ hPe⟩
  | cutShort top => exact more [_]
  | stray top x => exact more [_]
  | _ => exact h

theorem exists_issue_of_walks {P : Issue → Prop} (hP : ∀ e p, P e → P (e.withOpened p))
    (hw : Walks o s u) (h : ∃ e ∈ s.issues, P e) : ∃ e ∈ u.issues, P e := by
  refine hw.keeps (P := fun s => ∃ e ∈ s.issues, P e) (fun {s u} hst hs => ?_) h
  obtain ⟨x, rest, -, -, hissues⟩ := hst.exists_apply
  rw [hissues]
  exact exists_issue_apply hP _ hs

/-- All that was reported on the way is in the outcome. -/
theorem exists_issue_outcome {P : Issue → Prop} (hP : ∀ e p, P e → P (e.withOpened p))
    (hw : Walks o (Scan.start t i) u) (h : ∃ e ∈ u.issues, P e) :
    ∃ e ∈ (Scan.ofTextWith t i o).issues, P e := by
  obtain ⟨e, he, hPe⟩ := exists_issue_of_walks hP (walks_run o u) h
  refine ⟨e, ?_, hPe⟩
  rw [Scan.ofTextWith, run_eq_of_walks hw, outcome]
  split
  · exact List.mem_reverse.mpr he
  · exact List.mem_append_left _ (List.mem_append_left _ (List.mem_reverse.mpr he))

/-! ### A frame is removed once -/

/-- Every place of a walk is followed by its end. -/
theorem walks_run_of_walks (h : Walks o s u) : Walks o u (run o s) :=
  run_eq_of_walks h ▸ walks_run o u

/-- After a move there is nothing open but what was before and what is opened here. -/
theorem same_or_pos_of_changes {pos : Nat} {before after : List Frame} {m : Move}
    (h : m.Changes pos before after) :
    ∀ g ∈ after, g.pos = pos ∨ ∃ k ∈ before, g.IsSame k := by
  have hsub (hs : after ⊆ before) : ∀ g ∈ after, g.pos = pos ∨ ∃ k ∈ before, g.IsSame k :=
    fun g hg => .inr ⟨g, hs hg, .refl g⟩
  have hsame (he : after = before) : ∀ g ∈ after, g.pos = pos ∨ ∃ k ∈ before, g.IsSame k :=
    hsub (he ▸ List.Subset.refl _)
  have hpop {top : Frame} (he : before = top :: after) :
      ∀ g ∈ after, g.pos = pos ∨ ∃ k ∈ before, g.IsSame k :=
    hsub (he ▸ List.subset_cons_self top after)
  have hcons {f : Frame} (hf : f.pos = pos) (he : after = f :: before) :
      ∀ g ∈ after, g.pos = pos ∨ ∃ k ∈ before, g.IsSame k := by
    rw [he]
    exact List.forall_mem_cons.mpr ⟨.inl hf, fun g hg => .inr ⟨g, hg, .refl g⟩⟩
  cases m with
  | pass n => exact hsame h
  | enter mode quote n => exact hsame h
  | leave n => exact hsame h
  | openBracket x => exact hcons rfl h
  | openTag name phase n => exact hcons rfl h
  | closeBracket opener x =>
    obtain ⟨gone, he, -⟩ := h
    exact hsub (he ▸ List.subset_append_right gone after)
  | closeTag name n =>
    obtain ⟨gone, he, -⟩ := h
    exact hsub (he ▸ List.subset_append_right gone after)
  | endTag n =>
    obtain ⟨top, he, -⟩ := h
    exact hpop he
  | beginChildren =>
    obtain ⟨top, fs, rfl, -, rfl⟩ := h
    exact List.forall_mem_cons.mpr ⟨.inr ⟨top, List.mem_cons_self, rfl, rfl, rfl⟩,
      fun g hg => .inr ⟨g, List.mem_cons_of_mem top hg, .refl g⟩⟩
  | cutShort top => exact hpop h.1
  | stray top x => exact hsame h

/-- A frame that was open before this place and is no longer stays closed. -/
theorem not_holds_of_walks (h : Orderly o t i s) (hw : Walks o s u) (hpos : f.pos < s.cursor.pos)
    (hs : ¬ s.Holds f) : ¬ u.Holds f := by
  have key := hw.keeps (P := fun s => Orderly o t i s ∧ f.pos < s.cursor.pos ∧ ¬ s.Holds f)
    (fun {s u} hst ⟨hord, hp, hn⟩ => ?_) ⟨h, hpos, hs⟩
  · exact key.2.2
  obtain ⟨⟨x, rest, -, -, hchange⟩, hu⟩ := hord.step hst
  refine ⟨hu, Nat.lt_of_lt_of_le hp hst.pos_le, fun ⟨g, hg, hfg⟩ => ?_⟩
  rcases same_or_pos_of_changes hchange g hg with hpos | ⟨k, hk, hgk⟩
  · exact absurd (hfg.2.2.trans hpos) hp.ne
  · exact hn ⟨k, hk, hfg.trans hgk⟩

/-- A frame that was removed is never open again. -/
theorem Removes.not_holds (hrem : s.Removes u f) (hs : Walks o (Scan.start t i) s)
    (hsu : Steps o s u) (huv : Walks o u v) : ¬ v.Holds f := by
  have hord := hs.orderly
  obtain ⟨g, hg, hfg⟩ := hrem.1
  have hpos : f.pos < s.cursor.pos := hfg.2.2 ▸ (hord.nested.bounds g hg).2
  exact not_holds_of_walks (hord.step hsu).2 huv (Nat.lt_of_lt_of_le hpos hsu.pos_le) hrem.2

/-- No walk removes a frame at two places. -/
theorem Removes.unique (hs : Walks o (Scan.start t i) s) (hsu : Steps o s u)
    (hrem : s.Removes u f) (hv : Walks o (Scan.start t i) v) (hvw : Steps o v w)
    (hrem' : v.Removes w f) : s = v ∧ u = w := by
  have hfirst {s u v : ScanState} (hs : Walks o (Scan.start t i) s) (hsu : Steps o s u)
      (hrem : s.Removes u f) (hsv : Walks o s v) (hv : v.Holds f) : s = v := by
    rcases hsv.cases_head with rfl | ⟨u', hu', huv⟩
    · rfl
    obtain rfl : u' = u := Option.some.inj (hu'.symm.trans hsu)
    exact absurd hv (hrem.not_holds hs hsu huv)
  have hsv : s = v := by
    rcases hs.total hv with h | h
    · exact hfirst hs hsu hrem h hrem'.1
    · exact (hfirst hv hvw hrem' h hrem.1).symm
  subst hsv
  exact ⟨rfl, Option.some.inj (hsu.symm.trans hvw)⟩

/-- What is open at the beginning of a walk is open at its end, or a step removes it. -/
theorem Walks.holds_or_removes (hw : Walks o s u) (hf : s.Holds f) :
    u.Holds f ∨ ∃ v w, Walks o s v ∧ Steps o v w ∧ v.Removes w f := by
  induction hw with
  | refl => exact .inl hf
  | @tail v w hsv hvw ih =>
    rcases ih with hv | hremoved
    · by_cases hwf : w.Holds f
      · exact .inl hwf
      · exact .inr ⟨v, w, hsv, hvw, hv, hwf⟩
    · exact .inr hremoved

/-- A walk that ended because all was closed has nothing open. -/
theorem frames_of_closedAt? (hs : Walks o (Scan.start t i) s) (hc : s.closedAt?.isSome = true) :
    s.stack.frames = [] := by
  have key := hs.keeps (P := fun s => s.closedAt?.isSome = true → s.stack.frames = [])
    (fun {s u} hst _ hu => ?_) nofun
  · exact key hc
  obtain ⟨hnone, x, rest, -, rfl | rfl⟩ := hst.exists_move
  · simp [hnone] at hu
  · rw [stack_noteBalance]
    by_contra hopen
    rw [noteBalance] at hu
    split at hu
    · simp [hnone] at hu
    · rw [if_pos (by simpa using hopen)] at hu
      simp [hnone] at hu

/-- What is listed as unclosed is what is open where the walk ends. -/
theorem meets_unclosed_iff :
    Scan.Meets t i o f .unclosed ↔ (run o (Scan.start t i)).Holds f := by
  have hlist : (Scan.ofTextWith t i o).unclosed =
      (run o (Scan.start t i)).stack.frames.reverse := by
    rw [Scan.ofTextWith, outcome]
    split
    · next hc => rw [frames_of_closedAt? (walks_run o _) hc]; rfl
    · rfl
  simp only [Scan.Meets, Holds, hlist, List.mem_reverse]

/-- Every frame that a walk opens meets one fate and no other. -/
theorem existsUnique_meets (hs : Walks o (Scan.start t i) s) (hf : s.Holds f) :
    ∃! fate, Scan.Meets t i o f fate := by
  rcases (walks_run_of_walks hs).holds_or_removes hf with hopen | ⟨v, w, hsv, hvw, hrem⟩
  · refine ⟨.unclosed, meets_unclosed_iff.mpr hopen, fun fate hfate => ?_⟩
    have hkept {s u : ScanState} (hs : Walks o (Scan.start t i) s) (hsu : Steps o s u)
        (hrem : s.Removes u f) : False :=
      hrem.not_holds hs hsu (walks_run_of_walks (hs.tail hsu)) hopen
    cases fate with
    | closed =>
      obtain ⟨_, _, hs, hsu, hrem, -⟩ := hfate
      exact (hkept hs hsu hrem).elim
    | reported =>
      obtain ⟨_, _, hs, hsu, hrem, -⟩ := hfate
      exact (hkept hs hsu hrem).elim
    | unclosed => rfl
  · have hv : Walks o (Scan.start t i) v := hs.trans hsv
    have hclosed : ¬ Scan.Meets t i o f .unclosed := fun h =>
      hrem.not_holds hv hvw (walks_run_of_walks (hv.tail hvw)) (meets_unclosed_iff.mp h)
    rcases hv.orderly.resolves hvw hrem with ⟨hends, hsilent⟩ | ⟨hreports, hother⟩
    · refine ⟨.closed, ⟨v, w, hv, hvw, hrem, hends⟩, fun fate hfate => ?_⟩
      cases fate with
      | closed => rfl
      | reported =>
        obtain ⟨s', u', hs', hsu', hrem', hreports, -⟩ := hfate
        obtain ⟨rfl, rfl⟩ := hrem.unique hv hvw hs' hsu' hrem'
        exact absurd hreports hsilent
      | unclosed => exact absurd hfate hclosed
    · have hfinal : ∃ e ∈ (Scan.ofTextWith t i o).issues, e.Blames f := by
        obtain ⟨found, hfound, e, he, hb⟩ := hreports
        exact exists_issue_outcome (fun e p he => he.withOpened p) (hv.tail hvw)
          ⟨e, hfound ▸ List.mem_append_left _ he, hb⟩
      refine ⟨.reported, ⟨v, w, hv, hvw, hrem, hreports, hfinal⟩, fun fate hfate => ?_⟩
      cases fate with
      | closed =>
        obtain ⟨s', u', hs', hsu', hrem', hends⟩ := hfate
        obtain ⟨rfl, rfl⟩ := hrem.unique hv hvw hs' hsu' hrem'
        exact absurd hends hother
      | reported => rfl
      | unclosed => exact absurd hfate hclosed

/-! ### Closers that are read -/

/-- In script the move is one for script, with tags or without. -/
theorem move_of_script (hm : s.stack.mode = .normal)
    (hc : o.tracksTags = true → s.stack.context = .script) :
    s.move o x rest =
      inScript o (expressionCanFollow s.cursor.before) x (second? o s rest) rest := by
  rw [move, Move.next, hm]
  cases hfs : s.stack.frames with
  | nil => rfl
  | cons top fs =>
    rw [BracketStack.context, hfs] at hc
    by_cases ho : o.tracksTags = true
    · have htop : top.context = .script := hc ho
      simp only [outside, ho, if_true, htop]
    · simp only [outside, ho, if_false, Bool.false_eq_true]

theorem move_of_markup (hm : s.stack.mode = .normal) (ho : o.tracksTags = true)
    (hc : s.stack.context = .markup) : s.move o x rest = inMarkup x (second? o s rest) rest := by
  rw [move, Move.next, hm]
  cases hfs : s.stack.frames with
  | nil =>
    rw [BracketStack.context, hfs] at hc
    cases hc
  | cons top fs =>
    rw [BracketStack.context, hfs] at hc
    have htop : top.context = .markup := hc
    simp only [outside, ho, if_true, htop]

theorem closing_of_isClosingTag {name piece : Text} (hw : IsClosingTag name piece)
    (hp : piece <+: '<' :: '/' :: rest) : ∃ n, closing rest = .closeTag name n := by
  obtain ⟨tail, htail, rfl⟩ := hw
  obtain ⟨r, hr⟩ := hp
  obtain rfl : tail ++ r = rest := by simpa using hr
  refine ⟨tail.length + 2, ?_⟩
  rw [closing, closingTagRest?_eq_some_iff.mpr ⟨tail, r, htail, rfl, rfl⟩]

theorem ReadsCloser.move_bracket (h : ReadsCloser o s (.bracket x)) :
    ∃ rest opener, s.cursor.after = x :: rest ∧ o.openerOf? x = some opener ∧
      s.move o x rest = .closeBracket opener x := by
  cases h with
  | @bracket _ rest mode script after quote comment opener closer =>
    obtain ⟨y, hy⟩ := Option.isSome_iff_exists.mp closer
    refine ⟨rest, y, after, hy, ?_⟩
    rw [move_of_script mode script, inScript, if_neg (by simpa using quote),
      if_neg fun hx => (comment hx.1).1 hx.2, if_neg fun hx => (comment hx.1).2 hx.2, opener,
      if_neg Bool.false_ne_true, hy]

theorem ReadsCloser.move_tag {name : Text} (h : ReadsCloser o s (.tag name)) :
    ∃ x rest n, s.cursor.after = x :: rest ∧ s.move o x rest = .closeTag name n := by
  cases h with
  | @tag _ piece mode tracked content angle after written inside =>
    obtain ⟨r, hr⟩ := after
    obtain ⟨tail, hafter⟩ : ∃ tail, s.cursor.after = '<' :: '/' :: tail := by
      obtain ⟨tail, -, rfl⟩ := id written
      exact ⟨tail ++ r, hr.symm⟩
    have hpiece : piece <+: '<' :: '/' :: tail := ⟨r, by rw [hr, hafter]⟩
    obtain ⟨n, hn⟩ := closing_of_isClosingTag written hpiece
    refine ⟨'<', '/' :: tail, n, hafter, ?_⟩
    have hsecond : second? o s ('/' :: tail) = some '/' := by rw [second?, if_pos inside]; rfl
    cases hc : s.stack.context with
    | script =>
      obtain ⟨hopener, hcloser⟩ := angle hc
      rw [move_of_script mode fun _ => hc, hsecond]
      simp [inScript, hopener, hcloser, tracked, hn]
    | attrs => exact absurd hc content
    | markup =>
      rw [move_of_markup mode tracked hc, hsecond]
      simp [inMarkup, hn]

/-- A closer that is read closes an opener of its own or is reported. -/
theorem ReadsCloser.removes_or_reports {c : Closer} (hc : ReadsCloser o s c)
    (h : Orderly o t i s) (hst : Steps o s u) :
    (∃ g ∈ s.stack.frames, c.IsOf o g ∧ s.Removes u g) ∨
      s.Reports u fun e => e.closer? = some c ∧ e.pos = s.cursor.pos := by
  obtain ⟨x, rest, ha, hstack, hissues⟩ := hst.exists_apply
  cases c with
  | bracket y =>
    obtain ⟨rest', opener, ha', hopener, hmove⟩ := hc.move_bracket
    obtain ⟨rfl, rfl⟩ := List.cons.inj (ha.symm.trans ha')
    rw [hmove] at hstack hissues
    rcases closesBracket s opener x with
      @⟨top, hf, hk, htoken, -⟩ | ⟨-, -, stop, hi⟩ | ⟨-, stop, hi⟩
    · rw [← hstack] at hf
      have hgone : s.stack.frames = [top] ++ u.stack.frames := hf
      refine .inl ⟨top, hf ▸ List.mem_cons_self, ⟨hk, opener, hopener, htoken⟩, ?_⟩
      exact removes_of_gone h.nested hgone List.mem_cons_self
    · exact .inr ⟨[_], hissues.trans hi, _, List.mem_cons_self, rfl, rfl⟩
    · exact .inr ⟨[_], hissues.trans hi, _, List.mem_cons_self, rfl, rfl⟩
  | tag name =>
    obtain ⟨x', rest', n, ha', hmove⟩ := hc.move_tag
    obtain ⟨rfl, rfl⟩ := List.cons.inj (ha.symm.trans ha')
    rw [hmove] at hstack hissues
    rcases closesTag s name n with
      ⟨stop, hf, hk, htoken, -, -⟩ | ⟨stop, -, -, -, hi⟩ | ⟨stop, -, hi⟩
    · rw [← hstack] at hf
      have hlast {inner : List Frame} {top : Frame} : top ∈ inner ++ [top] :=
        List.mem_append_right _ List.mem_cons_self
      refine .inl ⟨_, hf ▸ List.mem_append_left _ hlast, ⟨hk _ hlast, htoken⟩, ?_⟩
      exact removes_of_gone h.nested hf hlast
    · exact .inr ⟨[_], hissues.trans hi, _, List.mem_cons_self, rfl, rfl⟩
    · exact .inr ⟨[_], hissues.trans hi, _, List.mem_cons_self, rfl, rfl⟩

/-! ### Nothing is lost -/

/-- For all options and wherever the walk starts, every frame that is ever open meets one of the
fates and no other, and every closer that is read closes an opener of its own or is named by an
issue of the outcome. -/
theorem fates_of_walks (h : Walks o (Scan.start t i) s) :
    (∀ f ∈ s.stack.frames, ∃! fate, Scan.Meets t i o f fate) ∧
      ∀ c u, ReadsCloser o s c → Steps o s u →
        (∃ g ∈ s.stack.frames, c.IsOf o g ∧ s.Removes u g) ∨
          ∃ e ∈ (Scan.ofTextWith t i o).issues, e.closer? = some c ∧ e.pos = s.cursor.pos := by
  refine ⟨fun f hf => existsUnique_meets h ⟨f, hf, .refl f⟩, fun c u hc hst => ?_⟩
  refine (hc.removes_or_reports h.orderly hst).imp_right fun ⟨found, hfound, e, he, hP⟩ => ?_
  refine exists_issue_outcome (fun e p he => ?_) (h.tail hst)
    ⟨e, hfound ▸ List.mem_append_left _ he, hP⟩
  rwa [Issue.closer?_withOpened, Issue.pos_withOpened]

/-- A walk of a number of steps, or of all that there are. -/
theorem walks_iterate (o : ScanOptions) (s : ScanState) (n : Nat) :
    Walks o s ((fun s => (next? o s).getD s)^[n] s) := by
  induction n with
  | zero => exact .refl
  | succ n ih =>
    rw [Function.iterate_succ_apply']
    generalize (fun s => (next? o s).getD s)^[n] s = u at ih
    cases hu : next? o u with
    | none => exact ih
    | some v => exact ih.tail hu

theorem fates_of_walks_crossed :
    let t := "(<a><b></a>".toList
    let s := (fun s => (next? (whole 11) s).getD s)^[5] (Scan.start t 0)
    s.stack.frames.map Frame.display = ["<b>".toList, "<a>".toList, "(".toList] ∧
      ReadsCloser (whole 11) s (.tag ['a']) ∧
      (∀ f ∈ s.stack.frames, ∃! fate, Scan.Meets t 0 (whole 11) f fate) ∧
      ∀ u, Steps (whole 11) s u → (∃ g ∈ s.stack.frames, (Closer.tag ['a']).IsOf (whole 11) g ∧
          s.Removes u g) ∨ ∃ e ∈ (Scan.ofTextWith t 0 (whole 11)).issues,
            e.closer? = some (.tag ['a']) ∧ e.pos = s.cursor.pos := by
  intro t s
  have htag : IsClosingTag ['a'] "</a>".toList :=
    ⟨"a>".toList, ⟨.inr ⟨'a', [], rfl, by decide, List.forall_mem_nil _⟩, [], [],
      List.forall_mem_nil _, List.forall_mem_nil _, rfl⟩, rfl⟩
  have hreads : ReadsCloser (whole 11) s (.tag ['a']) :=
    .tag (by decide +kernel) rfl (by decide +kernel) (fun _ => by decide) (by decide +kernel)
      htag (by decide +kernel)
  have hframes : s.stack.frames.map Frame.display = ["<b>".toList, "<a>".toList, "(".toList] := by
    decide +kernel
  have hwalks : Walks (whole 11) (Scan.start t 0) s := walks_iterate (whole 11) (Scan.start t 0) 5
  clear_value s
  obtain ⟨hfates, hclosers⟩ := fates_of_walks hwalks
  exact ⟨hframes, hreads, hfates, fun u => hclosers _ u hreads⟩

end ScanState

end SnippetGate
