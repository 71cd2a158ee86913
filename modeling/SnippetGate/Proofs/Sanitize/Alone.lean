import SnippetGate.Proofs.Component.Alone
import SnippetGate.Proofs.Repair.EntryHead
import SnippetGate.Proofs.Repair.RepeatedEnd
import SnippetGate.Proofs.Repair.Rounds
import SnippetGate.Proofs.Sanitize.Fenced

/-!
# A component alone in a fence

Most repairs of the endings leave a valid component alone. No end of it is taken away, its tags and
corruption are as the contract wants them, and nothing is open behind its declaration. Two of them
look at lines only, and can mistake a text within a template string for the end of the returned
value. If they do not, then a component alone comes out of a fenced block as it was, but for what is
filled in.
-/

namespace SnippetGate

open Pattern Grammar ScanState

variable {c l r t : Text} {supply : Tsx.Filling.Supply}

/-- The scan from the start of a balanced part to the end of the text leaves nothing open. -/
theorem Scan.unclosed_ofTextFrom_append (p : Text) (h : (Scan.ofText t).isBalanced = true) :
    (Scan.ofTextFrom (p ++ t) p.length).unclosed = [] := by
  have hin := (inWhole_start t).walks (walks_run (whole t.length) _)
  obtain ⟨-, -, hframes⟩ := of_isBalanced_outcome hin.closedAt? h
  have hlimit : ScanOptions.shift p.length { limit := t.length } =
      { limit := (p ++ t).length } := by
    rw [List.length_append, Nat.add_comm]
    rfl
  have hrun : run { limit := (p ++ t).length } (Scan.start (p ++ t) p.length) =
      (run (whole t.length) (Scan.start t 0)).shift p.length := by
    rw [← hlimit, ← run_shift]
    exact congrArg _ (Scan.start_append p t 0)
  rw [Scan.ofTextFrom, Scan.ofTextWith, hrun, outcome, ScanState.shift, hin.closedAt?]
  simp [BracketStack.shift, hframes]

theorem Repair.IsIdle.leaves {q : Repair} (h : q.IsIdle t) : q.Leaves t := by
  refine leaves_iff.mpr fun u hu => ?_
  obtain ⟨⟨fragment, hdetects⟩, hacts, -, -⟩ := hu
  rw [IsIdle, propose, hdetects] at h
  dsimp only at h
  rw [hacts] at h
  cases h

namespace Component.IsAlone

open Repair

/-! ### The repairs of the endings -/

section

variable (h : IsAlone c) (hbalanced : (Scan.ofText c).isBalanced = true)
  (hl : ∀ x ∈ l, isBlank x = true)

include h hl

theorem startsAt_declaration (r : Text) :
    Settings.standard.entryDeclaration.StartsAt l (c ++ r) := by
  obtain ⟨m, head, block, gap, hs, -, -, -⟩ := h.exists_spans
  have hexplicit : Settings.standard.entryOpening.isExplicit = true := by decide
  obtain ⟨w, ho, hfits⟩ := exists_fits_of_mem_ends hexplicit (finds_of_searchFrom? hs.found).last
  obtain rfl : w = head ++ ['{'] := by rw [← hs.opening, Match.text, ho.between]
  obtain ⟨g, b, p, k, o, k', hne, hblank, -, -, hw⟩ := exists_of_fits_entryOpening hfits
  obtain ⟨x, g, rfl⟩ := List.exists_cons_of_ne_nil hne
  simp only [List.cons_append, List.forall_mem_cons, List.forall_mem_append] at hblank
  obtain ⟨hx, hg, hb, -⟩ := hblank
  obtain ⟨q, z, rfl, -⟩ := hs.bracket
  have hedge : l.getLast?.any isWord = false := by
    have := any_getLast?_blanks (q := isWord) (fun _ => not_isWord_of_isBlank) hl []
    rwa [List.append_nil] at this
  refine startsAt_entryDeclaration.mpr ⟨hedge, _,
    p ++ ')' :: (k ++ (o ++ (k' ++ ['{']))) ++
      (q ++ [z] ++ (gap ++ Settings.standard.canonicalMount)) ++ r, ?_, ⟨x, g, b, rfl, hx, hg, hb⟩,
    by simp⟩
  have hparts : c = (head ++ ['{']) ++ (q ++ [z] ++ (gap ++ Settings.standard.canonicalMount)) := by
    rw [hs.parts]
    simp
  rw [hparts, hw]
  simp

include hbalanced

/-- Nothing is open behind the declaration, so there are no closing tags to put in. -/
theorem closurePlan?_eq_none (hr : ∀ x ∈ r, isBlank x = true) :
    closurePlan? .standard (l ++ (c ++ r)) = none := by
  obtain ⟨m, hm, hle⟩ := (h.startsAt_declaration hl r).exists_search?
  obtain ⟨u, v, he, hstart, hs⟩ := startsAt_of_search? hm
  obtain ⟨-, head, rest, rfl, hhead, -⟩ := startsAt_entryDeclaration.mp hs
  obtain ⟨k, rfl, -⟩ := hhead.exists_cons
  have hge := length_le_of_blanks hl (by decide : isBlank 'f' = false) he
  have hregion : m.start = l.length := hle.antisymm (hstart ▸ hge)
  have htags : (Scan.ofTextFrom (l ++ (c ++ r)) m.start).unclosedTags = [] := by
    have hrest : (Scan.ofText (c ++ r)).isBalanced = true :=
      isBalanced_blanks (l := []) (List.forall_mem_nil _) hr hbalanced
    rw [hregion, Scan.unclosedTags, Scan.unclosed_ofTextFrom_append l hrest]
    rfl
  simp [closurePlan?, hm, htags]

theorem leaves_collapseUnits (hr : ∀ x ∈ r, isBlank x = true) :
    (collapseUnits .standard).Leaves (l ++ (c ++ r)) := by
  obtain ⟨m, head, block, gap, hs, hhead, hne, hgap⟩ := h.exists_spans
  obtain ⟨m', hs'⟩ := hs.blanks hhead hl r
  obtain ⟨q, z, rfl, -⟩ := hs.bracket
  have hparts : l ++ (c ++ r) = (l ++ head) ++ '{' :: (q ++ [z] ++
      (gap ++ Settings.standard.canonicalMount ++ r)) := by
    rw [hs'.parts]
    simp
  have hends := hs'.ends
  rw [hs'.brace, ← List.append_assoc l head, hparts] at hends
  have hread : ∀ c d : Cursor, c.Over (l ++ head) d → Reads .script c d := fun c d ho => by
    obtain ⟨e, h₁, h₂⟩ := ho.split
    exact (reads_blanks (.nil .script c) hl h₁).trans (hhead.reads h₂)
  have hfront : ∀ x ∈ l ++ head, x ≠ '}' ∧ x ≠ ';' := by
    have hnot {y : Char} (hy : isBlank y = false) (hy' : y ∉ head) : y ∉ l ++ head := by
      rw [List.mem_append, not_or]
      exact ⟨fun hmem => by simp [hl y hmem] at hy, hy'⟩
    intro x hx
    constructor <;> rintro rfl
    · exact hnot (by decide) (hhead.not_mem (by decide) (by decide)) hx
    · exact hnot (by decide) (hhead.not_mem (by decide) (by decide)) hx
  have hkeeps : Keeps (l ++ head) (q ++ [z]) (l ++ (c ++ r)) := by
    refine ⟨gap, Settings.standard.mountExpression, ';' :: r, ?_, hgap, isMount_mountExpression, ?_,
      ?_⟩
    · rw [hparts]
      simp [Settings.canonicalMount]
    · rw [List.mem_append, List.mem_cons, not_or, not_or]
      exact ⟨by decide, by decide, fun hmem => absurd (hr _ hmem) (by decide)⟩
    · have hassoc : l ++ head ++ '{' :: (q ++ [z] ++ gap) =
          (l ++ head ++ '{' :: (q ++ [z])) ++ gap := by simp
      rw [hassoc]
      exact fresh_append_of_ne_nil _ hne (fresh_of_blanks hgap)
  have hwhole := isBalanced_blanks hl hr hbalanced
  rw [hparts] at hkeeps hwhole ⊢
  exact Repair.leaves_collapseUnits hread hfront hends hkeeps hwhole

end

/-- The repairs of the endings do nothing to a component alone, if two of them do not. -/
theorem isSettled_closing (h : IsAlone c) (hd : Contract.defects .standard c = [])
    (hl : ∀ x ∈ l, isBlank x = true) (hr : ∀ x ∈ r, isBlank x = true)
    (hreturn : collapseReturnClose.Leaves (l ++ (c ++ r)))
    (horphans : stripOrphanClosers.Leaves (l ++ (c ++ r))) :
    IsSettled (closing .standard) (l ++ (c ++ r)) := by
  simp only [Contract.defects, Contract.checkBalance, List.append_eq_nil_iff,
    List.map_eq_nil_iff] at hd
  obtain ⟨⟨-, hsignatures⟩, hissues⟩ := hd
  have hbalanced : (Scan.ofText c).isBalanced = true := by
    rw [Scan.isBalanced, hissues]
    rfl
  refine isSettled_iff.mpr fun q hq => ?_
  simp only [closing, List.mem_append, List.mem_cons, List.not_mem_nil, or_false] at hq
  rcases hq with ((rfl | rfl | rfl) | hq) | (rfl | rfl)
  · exact h.leaves_collapseUnits hbalanced hl hr
  · exact hreturn
  · exact horphans
  · exact (isIdle_ofTier hl hr hsignatures q hq).leaves
  · have hnone : tagIssue? (l ++ (c ++ r)) = none := by
      rw [tagIssue?, List.isEmpty_iff.mp (isBalanced_blanks hl hr hbalanced)]
      rfl
    exact (isIdle_sure (by rw [hnone]; rfl)).leaves
  · exact (isIdle_sure (by
      rw [missingClosers?, h.closurePlan?_eq_none hbalanced hl hr]
      rfl)).leaves

end Component.IsAlone

/-! ### Runs -/

namespace Sanitize

open Component

/-- A text that is accepted as it is comes out as it was from a fenced block just if the endings, the
isolation of the component and the filling leave it alone. If it is a component alone, and no line
in it looks like the end of a returned value, then only the filling can change it. -/
theorem sanitize_fenced_alone (hstage : (sanitize .standard supply t).stage = .precheck)
    (hreturn : '\r' ∉ t) (hfence : Repair.fenceLine.occursIn t = false)
    (hlength : ((fenced t).length : Int) ≤ Settings.standard.maxInputChars) :
    (sanitize .standard supply t).verdict = .accepted (Text.trim t) ∧
      (sanitize .standard supply (fenced t)).stage = .final ∧
      "strip_markdown_fences".toList :: (mendEnd t).applied <+:
        (sanitize .standard supply (fenced t)).repairs ∧
      ((sanitize .standard supply (fenced t)).verdict = .accepted (Text.trim t) ↔
        finish supply (mendEnd t).text = Text.trim t) ∧
      (IsAlone (Text.trim t) → Repair.collapseReturnClose.Leaves (t ++ ['\n']) →
        Repair.stripOrphanClosers.Leaves (t ++ ['\n']) →
        let filled := Tsx.Filling.fill Settings.standard.grammar supply (Text.trim t)
        (sanitize .standard supply (fenced t)).repairs =
            "strip_markdown_fences".toList :: filled.applied ∧
          ((sanitize .standard supply (fenced t)).verdict = .accepted (Text.trim t) ↔
            filled.text = Text.trim t)) := by
  obtain ⟨hverdict, hfinal, hprefix, haccepted⟩ := sanitize_fenced hstage hreturn hfence hlength
  refine ⟨hverdict, hfinal, hprefix, haccepted, fun halone hleaves horphans => ?_⟩
  obtain ⟨-, hdefects, -⟩ := precheck_spec hstage
  obtain ⟨l, r, ht, hl, hr⟩ := Text.exists_trim t
  have hr' : ∀ x ∈ r ++ ['\n'], isBlank x = true :=
    List.forall_mem_append.mpr ⟨hr, List.forall_mem_singleton.mpr (by decide)⟩
  have hblock : t ++ ['\n'] = l ++ (Text.trim t ++ (r ++ ['\n'])) := by
    conv_lhs => rw [ht]
    simp
  have hsettled : Repair.IsSettled (Repair.closing .standard) (t ++ ['\n']) := by
    rw [hblock] at hleaves horphans ⊢
    exact halone.isSettled_closing hdefects hl hr' hleaves horphans
  obtain ⟨htext, happlied⟩ : (mendEnd t).text = t ++ ['\n'] ∧ (mendEnd t).applied = [] := hsettled
  have hcomponent : ofText .standard (t ++ ['\n']) = { text := Text.trim t, mode := .span } := by
    rw [hblock]
    exact halone.ofText_blanks hl _
  have htrim := (Text.isTrimmed_trim t).trim_eq
  refine ⟨?_, ?_⟩
  · have hrepair : Repair.repair .standard (fenced t) =
        (mendEnd t).behind ["strip_markdown_fences".toList] :=
      Repair.repair_fenced hreturn hfence hdefects
    rw [sanitize_fenced_eq_repairPath hstage hlength, (repairPath_spec supply _ _ _).2.1, prepare,
      hrepair]
    simp only [Repair.Progress.behind, htext, happlied, hcomponent, htrim]
    rfl
  · rw [haccepted, finish, htext, hcomponent, htrim]

theorem sanitize_fenced_alone_strayBraceMended :
    (sanitize .standard .notInstalled (fenced strayBraceMended)).repairs =
        ["strip_markdown_fences".toList] ∧
      (sanitize .standard .notInstalled (fenced strayBraceMended)).verdict =
        .accepted (Text.trim strayBraceMended) := by
  have hfound : (Settings.standard.entryOpening.search? (Text.trim strayBraceMended)).map
      Match.text = some "function GeneratedLesson()\x7b".toList := by decide +kernel
  obtain ⟨m, hm, htext⟩ := Option.map_eq_some_iff.mp hfound
  have halone : IsAlone (Text.trim strayBraceMended) :=
    (text_ofText_eq_self_iff hm ⟨_, ⟨[' '], [], [], [], by decide, rfl⟩, htext⟩
      (by decide +kernel)).mp (by decide +kernel)
  have hidle {p : Pattern} {name : String} {f : Match → Text}
      (hp : p.search? (strayBraceMended ++ ['\n']) = none) :
      (Repair.ofPattern name .duplication p f).Leaves (strayBraceMended ++ ['\n']) :=
    (Repair.isIdle_sure (by rw [hp]; rfl)).leaves
  have hstage : (sanitize .standard .notInstalled strayBraceMended).stage = .precheck := by
    decide +kernel
  obtain ⟨-, -, -, -, h⟩ := sanitize_fenced_alone hstage (by decide) (by decide +kernel)
    (by decide +kernel)
  obtain ⟨hrepairs, haccepted⟩ := h halone (hidle (by decide +kernel)) (hidle (by decide +kernel))
  exact ⟨hrepairs, haccepted.mpr rfl⟩

end Sanitize

end SnippetGate
