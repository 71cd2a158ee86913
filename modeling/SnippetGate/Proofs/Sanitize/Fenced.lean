import SnippetGate.Proofs.Balance.Blanks
import SnippetGate.Proofs.Repair.Fences
import SnippetGate.Proofs.Repair.Idle
import SnippetGate.Proofs.Sanitize.Release
import SnippetGate.Tsx.Grammar

/-!
# The same text with and without a fence

A text that is accepted as it is takes the long way through the gate when it comes as a fenced
block. Without the fences no repair finds anything in it up to those of the endings. So it
comes out as it was if the endings, the isolation of the component and the filling leave it alone.
-/

namespace SnippetGate

open Pattern

variable {t u : Text} {supply : Tsx.Filling.Supply}

/-! ### The end of what fulfils the contract -/

/-- A text with one mount call at its end ends with a parenthesis or a semicolon, up to blanks. -/
theorem Contract.exists_terminal (h : Contract.checkMount .standard t = []) :
    ∃ l z e, t = l ++ z :: e ∧ (z = ')' ∨ z = ';') ∧ ∀ x ∈ e, isBlank x = true := by
  obtain ⟨m, hm, hafter⟩ := exists_findAll_of_checkMount h
  have hfinds := finds_of_mem_findAll (m := m) (by rw [hm]; exact List.mem_singleton_self m)
  obtain ⟨p, w, b, s, ht, hw, -, -, hb, hs⟩ := mount_of_finds hfinds
  rcases hs with rfl | rfl
  · obtain ⟨v, rfl, -⟩ := hw.exists_concat
    exact ⟨p ++ v, ')', b ++ m.last.cursor.after, by rw [ht]; simp, .inl rfl,
      List.forall_mem_append.mpr ⟨hb, hafter⟩⟩
  · exact ⟨p ++ (w ++ b), ';', m.last.cursor.after, by rw [ht]; simp, .inr rfl, hafter⟩

/-! ### Fenced texts -/

theorem getLast?_fenced (t : Text) : (fenced t).getLast? = some '\x60' := by
  have h : fenced t = (openingFence ++ (t ++ "\n\x60\x60".toList)) ++ ['\x60'] := by
    rw [fenced, List.append_assoc, List.append_assoc]
    rfl
  rw [h, List.getLast?_concat]

theorem isTrimmed_fenced (t : Text) : Text.IsTrimmed (fenced t) where
  head x hx := by
    obtain rfl := Option.some.inj hx
    decide
  last x hx := by
    rw [getLast?_fenced] at hx
    obtain rfl := Option.some.inj hx
    decide

/-- A fenced text does not fulfil the contract: something follows its mount call. -/
theorem Contract.defects_fenced (t : Text) : Contract.defects .standard (fenced t) ≠ [] := by
  intro h
  simp only [Contract.defects, List.append_eq_nil_iff] at h
  obtain ⟨l, z, e, he, hz, hblank⟩ := Contract.exists_terminal h.1.1.1.1.2
  have hlast := getLast?_fenced t
  rw [he, List.getLast?_append_of_ne_nil l (List.cons_ne_nil z e)] at hlast
  rcases List.mem_cons.mp (List.mem_of_getLast? hlast) with rfl | hmem
  · rcases hz with hz | hz <;> cases hz
  · exact absurd (hblank _ hmem) (by decide)

/-- The fences bring no denied code about. -/
theorem denied_of_fenced (h : Contract.checkMount .standard (Text.trim t) = [])
    (hd : Denied (fenced t)) : Denied t := by
  have hparts : Parts openingFence (t ++ '\n' :: closingFence) :=
    parts_of_getLast fun x hx => by
      obtain rfl := Option.some.inj hx
      decide
  have hblock := hd.of_append_left (u := openingFence) (by decide) hparts
  obtain ⟨l, z, e, he, hz, hblank⟩ := Contract.exists_terminal h
  obtain ⟨a, r, ht, -, hr⟩ := Text.exists_trim t
  have htail : t = (a ++ l) ++ z :: (e ++ r) := by
    rw [ht, he]
    simp
  have hsign : ∀ x ∈ z :: (e ++ r ++ '\n' :: closingFence), isSignChar x = false := by
    intro x hx
    simp only [List.mem_cons, List.mem_append] at hx
    rcases hx with rfl | (hx | hx) | rfl | hx
    · rcases hz with rfl | rfl <;> decide
    · exact not_isSignChar_of_isBlank (hblank x hx)
    · exact not_isSignChar_of_isBlank (hr x hx)
    · decide
    · exact (by decide : ∀ x ∈ closingFence, isSignChar x = false) x hx
  have hblock' :
      DeniedFor (fun _ _ => True) ((a ++ l) ++ z :: (e ++ r ++ '\n' :: closingFence)) := by
    rw [htail] at hblock
    simpa using hblock
  rw [htail]
  exact DeniedFor.of_tail (fun _ _ _ _ => trivial) (by rcases hz with rfl | rfl <;> decide)
    (hsign z List.mem_cons_self) (wordless_of_forall hsign) hblock'

/-! ### The repairs of a fenced text -/

namespace Repair

section

variable {l c r : Text} (hl : ∀ x ∈ l, isBlank x = true) (hr : ∀ x ∈ r, isBlank x = true)

include hl hr

theorem isIdle_ofTier {tier : Tier} (h : Contract.checkSignatures c = []) :
    ∀ q ∈ ofTier tier, q.IsIdle (l ++ (c ++ r)) := by
  intro q hq
  obtain ⟨s, hs, hsq⟩ := List.mem_filterMap.mp hq
  have hcatalogue := (List.mem_filter.mp hs).1
  have hdetect : s.detect c = none := by
    rw [Contract.checkSignatures, List.filterMap_eq_nil_iff] at h
    exact Option.map_eq_none_iff.mp (h s hcatalogue)
  obtain ⟨action, ha, -⟩ := Option.map_eq_some_iff.mp hsq
  exact isIdle_ofSignature?
    (Signature.detect_blanks hcatalogue (by rw [ha]; rfl) hl hr hdetect) q hsq

/-- The first repairs find nothing in a text without carriage returns and fences that fulfils the
contract up to blanks around it. -/
theorem isIdle_opening (hc : ∀ x ∈ c.head?, isBlank x = false)
    (h : Contract.defects .standard c = []) (hreturn : '\r' ∉ l ++ (c ++ r))
    (hfence : fenceLine.occursIn (l ++ (c ++ r)) = false) :
    ∀ q ∈ opening .standard, q.IsIdle (l ++ (c ++ r)) := by
  simp only [Contract.defects, List.append_eq_nil_iff] at h
  obtain ⟨⟨⟨⟨⟨hentry, hmount⟩, -⟩, hmodule⟩, hsignatures⟩, -⟩ := h
  have hbody : Signature.emptyHandlerBody.detect c = none := by
    rw [Contract.checkSignatures, List.filterMap_eq_nil_iff] at hsignatures
    exact Option.map_eq_none_iff.mp (hsignatures _ (by simp [Signature.catalogue]))
  intro q hq
  simp only [opening, List.mem_append, List.mem_cons, List.not_mem_nil, or_false] at hq
  rcases hq with ((((rfl | rfl | rfl) | hq) | rfl) | hq) | (rfl | rfl)
  · exact isIdle_sure (if_neg (by rw [List.contains_iff_mem]; exact hreturn))
  · exact isIdle_sure (Option.map_eq_none_iff.mpr (search?_eq_none_iff.mpr hfence))
  · exact isIdle_stripModule hl hr hc hmodule
  · exact isIdle_ofTier hl hr hsignatures q hq
  · exact isIdle_adoptEntryPoint hl hr hentry
  · exact isIdle_ofTier hl hr hsignatures q hq
  · exact isIdle_fillHandlers hl hr hc hbody
  · exact isIdle_stripTail hl hr hmount

end

theorem propose_stripFences (h : fenceLine.occursIn t = false) :
    stripFences.propose (fenced t) = .ok (some (t ++ ['\n'])) := by
  have hfound : fenceLine.search? (fenced t) = some ⟨.ofText (fenced t), ⟨inBlock t, []⟩⟩ :=
    searchFrom?_fenced t
  have hdetect : stripFences.detect (fenced t) =
      .ok ((fenceLine.search? (fenced t)).map fun m => Text.trim m.text) := rfl
  have haction : stripFences.action (fenced t) =
      .ok (fenceLine.replaceAll (fun _ => []) (fenced t)) := rfl
  rw [propose, hdetect, hfound, Option.map_some]
  dsimp only
  rw [haction, replaceAll_fenceLine_fenced h]
  rfl

/-- The first repairs take the fences away, and nothing else. -/
theorem foldl_opening_fenced (hreturn : '\r' ∉ t) (hfence : fenceLine.occursIn t = false)
    (h : Contract.defects .standard (Text.trim t) = []) :
    (opening .standard).foldl attempt (begin (fenced t)) =
      (begin (t ++ ['\n'])).behind ["strip_markdown_fences".toList] := by
  obtain ⟨l, r, ht, hl, hr⟩ := Text.exists_trim t
  have hr' : ∀ x ∈ r ++ ['\n'], isBlank x = true :=
    List.forall_mem_append.mpr ⟨hr, List.forall_mem_singleton.mpr (by decide)⟩
  have hblock : t ++ ['\n'] = l ++ (Text.trim t ++ (r ++ ['\n'])) := by
    conv_lhs => rw [ht]
    simp
  have hidle : ∀ q ∈ opening .standard, q.IsIdle (t ++ ['\n']) := by
    have hreturn' : '\r' ∉ t ++ ['\n'] := by simp [hreturn]
    have hfence' := occursIn_fenceLine_newline hfence
    rw [hblock] at hreturn' hfence' ⊢
    exact isIdle_opening hl hr' (Text.isTrimmed_trim t).head h hreturn' hfence'
  have hcost : costOf (t ++ ['\n']) = 0 := by
    rw [costOf, hblock]
    refine cost_eq_zero_of_isBalanced (isBalanced_blanks hl hr' ?_)
    simp only [Contract.defects, List.append_eq_nil_iff, Contract.checkBalance,
      List.map_eq_nil_iff] at h
    rw [Scan.isBalanced, h.2]
    rfl
  have hnewlines : normalizeNewlines.IsIdle (fenced t) := by
    refine isIdle_sure (if_neg ?_)
    rw [List.contains_iff_mem, fenced, List.mem_append, List.mem_append, List.mem_cons]
    rintro (hmem | hmem | hmem | hmem)
    · revert hmem; decide
    · exact hreturn hmem
    · cases hmem
    · revert hmem; decide
  have hne : t ++ ['\n'] ≠ fenced t := by
    intro he
    have := congrArg List.length he
    rw [length_fenced, List.length_append, List.length_singleton] at this
    omega
  have hstrip : attempt (begin (fenced t)) stripFences =
      (begin (t ++ ['\n'])).behind ["strip_markdown_fences".toList] := by
    rw [attempt_of_propose (p := begin (fenced t)) (propose_stripFences hfence) hne
      (by rw [hcost]; exact Nat.zero_le _)]
    rfl
  obtain ⟨rest, hrest⟩ : ∃ rest,
      opening .standard = normalizeNewlines :: stripFences :: rest := ⟨_, rfl⟩
  rw [hrest, List.foldl_cons, List.foldl_cons, attempt_of_isIdle (p := begin (fenced t)) hnewlines,
    hstrip]
  exact foldl_attempt_of_isIdle fun q hq => hidle q (by rw [hrest]; simp [hq])

/-- A fenced text is repaired like the text without its fences, from the endings on. -/
theorem repair_fenced (hreturn : '\r' ∉ t) (hfence : fenceLine.occursIn t = false)
    (h : Contract.defects .standard (Text.trim t) = []) :
    repair .standard (fenced t) =
      (runAll (closing .standard) (t ++ ['\n'])).behind ["strip_markdown_fences".toList] := by
  rw [repair, runAll, catalogue_eq, List.foldl_append, foldl_opening_fenced hreturn hfence h,
    foldl_attempt_behind, runAll]

end Repair

/-! ### Runs -/

namespace Sanitize

/-- What comes of a repaired text: its component with the mount call, filled where it is empty. -/
def finish (supply : Tsx.Filling.Supply) (t : Text) : Text :=
  (Tsx.Filling.fill Settings.standard.grammar supply
    (Text.trim (Component.ofText .standard t).text)).text

/-- What the repairs of the endings and the later ones make of a text, with the newline before its
closing fence. -/
def mendEnd (t : Text) : Repair.Progress :=
  Repair.runAll (Repair.closing .standard) (t ++ ['\n'])

theorem code_prepare (supply : Tsx.Filling.Supply) (t : Text) :
    (prepare .standard supply t).code = finish supply (Repair.repair .standard t).text := rfl

theorem applied_prefix_prepare (supply : Tsx.Filling.Supply) (t : Text) :
    (Repair.repair .standard t).applied <+: (prepare .standard supply t).repairs := by
  simp only [prepare]
  rw [List.append_assoc]
  exact List.prefix_append _ _

/-- A text that is accepted as it is holds no denied code and fulfils the contract without the
blanks around it. -/
theorem precheck_spec (h : (sanitize .standard supply t).stage = .precheck) :
    ¬ Denied t ∧ Contract.defects .standard (Text.trim t) = [] ∧
      (sanitize .standard supply t).verdict = .accepted (Text.trim t) := by
  unfold sanitize at h ⊢
  split at h
  · cases h
  next hblank =>
  split at h
  · cases h
  next hlong =>
  rw [if_neg hblank, if_neg hlong]
  split at h
  · next hnone =>
    refine ⟨isHarmless_iff.mp (by rw [Text.isHarmless]; exact List.isEmpty_iff.mpr hnone), ?_⟩
    simp only [contractPath] at h ⊢
    split at h
    · next hdefects =>
      rw [if_pos hdefects]
      exact ⟨List.isEmpty_iff.mp hdefects, rfl⟩
    · simp only [repairPath] at h
      split at h <;> cases h
  · cases h

/-- A fenced text without denied code and of an acceptable length is repaired. -/
theorem sanitize_eq_repairPath (h : ¬ Denied (fenced t))
    (hlength : ((fenced t).length : Int) ≤ Settings.standard.maxInputChars) :
    sanitize .standard supply (fenced t) = repairPath .standard supply (fenced t) (fenced t)
      (Contract.defects .standard (fenced t)) := by
  have hblank : ¬ Text.allBlank (fenced t) = true := by
    intro hall
    exact absurd (List.all_eq_true.mp hall '\x60' (List.mem_of_getLast? (getLast?_fenced t)))
      (by decide)
  have hviolations : Text.violations (fenced t) Settings.standard.trustedImport = [] :=
    List.isEmpty_iff.mp (isHarmless_iff.mpr h)
  rw [sanitize, if_neg hblank, if_neg (Int.not_lt.mpr hlength), hviolations]
  simp only [contractPath, (isTrimmed_fenced t).trim_eq]
  rw [if_neg (by rw [List.isEmpty_iff]; exact Contract.defects_fenced t)]

/-- On the way through the repairs the contract decides about what is prepared. -/
theorem repairPath_spec (supply : Tsx.Filling.Supply) (raw t : Text) (before : List Defect) :
    (repairPath .standard supply raw t before).stage = .final ∧
      (repairPath .standard supply raw t before).repairs = (prepare .standard supply t).repairs ∧
      ∀ code, (repairPath .standard supply raw t before).verdict = .accepted code ↔
        (prepare .standard supply t).code = code ∧ Contract.defects .standard code = [] := by
  simp only [repairPath]
  split
  · next h =>
    refine ⟨rfl, rfl, fun code => ?_⟩
    rw [List.isEmpty_iff] at h
    constructor
    · intro he
      obtain rfl := Verdict.accepted.inj he
      exact ⟨rfl, h⟩
    · rintro ⟨rfl, -⟩
      rfl
  · next h =>
    refine ⟨rfl, rfl, fun code => ?_⟩
    rw [List.isEmpty_iff] at h
    constructor
    · intro he
      cases he
    · rintro ⟨rfl, hd⟩
      exact absurd hd h

/-- A fenced text takes the way through the repairs if the text is accepted as it is. -/
theorem sanitize_fenced_eq_repairPath (hstage : (sanitize .standard supply t).stage = .precheck)
    (hlength : ((fenced t).length : Int) ≤ Settings.standard.maxInputChars) :
    sanitize .standard supply (fenced t) = repairPath .standard supply (fenced t) (fenced t)
      (Contract.defects .standard (fenced t)) := by
  obtain ⟨hharmless, hdefects, -⟩ := precheck_spec hstage
  simp only [Contract.defects, List.append_eq_nil_iff] at hdefects
  exact sanitize_eq_repairPath (mt (denied_of_fenced hdefects.1.1.1.1.2) hharmless) hlength

/-- A text that is accepted as it is comes out as it was from a fenced block just if the endings, the
isolation of the component and the filling leave it alone. No other repair counts but that of the
fences. -/
theorem sanitize_fenced (hstage : (sanitize .standard supply t).stage = .precheck)
    (hreturn : '\r' ∉ t) (hfence : Repair.fenceLine.occursIn t = false)
    (hlength : ((fenced t).length : Int) ≤ Settings.standard.maxInputChars) :
    (sanitize .standard supply t).verdict = .accepted (Text.trim t) ∧
      (sanitize .standard supply (fenced t)).stage = .final ∧
      "strip_markdown_fences".toList :: (mendEnd t).applied <+:
        (sanitize .standard supply (fenced t)).repairs ∧
      ((sanitize .standard supply (fenced t)).verdict = .accepted (Text.trim t) ↔
        finish supply (mendEnd t).text = Text.trim t) := by
  obtain ⟨-, hdefects, hverdict⟩ := precheck_spec hstage
  have hrepair := Repair.repair_fenced hreturn hfence hdefects
  obtain ⟨hfinal, hrepairs, haccepted⟩ := repairPath_spec supply (fenced t) (fenced t)
    (Contract.defects .standard (fenced t))
  rw [sanitize_fenced_eq_repairPath hstage hlength]
  refine ⟨hverdict, hfinal, ?_, ?_⟩
  · have hprefix := applied_prefix_prepare supply (fenced t)
    rw [hrepair] at hprefix
    rwa [hrepairs]
  · rw [haccepted, code_prepare, hrepair]
    exact and_iff_left hdefects

/-- A component in front of the entry point, which shows it. -/
def withHelper : Text :=
  "const A=()=><b/>;function GeneratedLesson()\x7breturn <A/>\x7drender(<GeneratedLesson />);".toList

/-- The entry point alone. -/
def withoutHelper : Text :=
  "function GeneratedLesson()\x7breturn <A/>\x7d\n\nrender(<GeneratedLesson />);".toList

theorem sanitize_fenced_withHelper :
    (sanitize .standard (.available Tsx.Grammar.parser) withHelper).stage = .precheck ∧
      '\r' ∉ withHelper ∧ Repair.fenceLine.occursIn withHelper = false ∧
      ((fenced withHelper).length : Int) ≤ Settings.standard.maxInputChars ∧
      (sanitize .standard (.available Tsx.Grammar.parser) (fenced withHelper)).verdict =
        .accepted withoutHelper ∧
      withoutHelper ≠ Text.trim withHelper := by
  refine ⟨?_, ?_, ?_, ?_, ?_, ?_⟩ <;> decide +kernel

end Sanitize

end SnippetGate
