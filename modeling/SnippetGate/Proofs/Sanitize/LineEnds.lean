import SnippetGate.Proofs.Contract.LineEnds
import SnippetGate.Proofs.Repair.Idle
import SnippetGate.Proofs.Repair.Run
import SnippetGate.Proofs.Sanitize.FixedPoint

/-!
# The verdict and the spelling of line ends

Both spellings of a text hold denied code or none does, and the first repair makes the shorter one
of the longer one. So the verdict can depend on the spelling only if the contract does, which is
checked on the text as it stands before any repair.
-/

namespace SnippetGate

open Pattern Text

variable {t : Text} {supply : Tsx.Filling.Supply}

/-! ### Denied code -/

theorem isEvenAnywhere_patterns : ∀ c ∈ DenyCategory.all,
    ∀ p ∈ c.patterns Settings.standard.trustedImport, p.isEvenAnywhere = true := by
  have h : (DenyCategory.all.all fun c =>
      (c.patterns Settings.standard.trustedImport).all isEvenAnywhere) = true := rfl
  simpa only [List.all_eq_true] using h

theorem DenyCategory.violation?_eq_none_iff {trusted : Text} {c : DenyCategory} :
    c.violation? trusted t = none ↔ ∀ p ∈ c.patterns trusted, p.occursIn t = false := by
  rw [violation?, List.findSome?_eq_none_iff]
  refine forall₂_congr fun p _ => ?_
  rw [Option.map_eq_none_iff, search?_eq_none_iff]

theorem isHarmless_eq_true_iff {trusted : Text} : t.isHarmless trusted = true ↔
    ∀ c ∈ DenyCategory.all, ∀ p ∈ c.patterns trusted, p.occursIn t = false := by
  rw [isHarmless, violations, List.isEmpty_iff, List.filterMap_eq_nil_iff]
  refine forall₂_congr fun c _ => ?_
  rw [Option.map_eq_none_iff, DenyCategory.violation?_eq_none_iff]

/-- Both spellings hold denied code or none does. -/
theorem isHarmless_crlf (t : Text) : (crlf t).isHarmless Settings.standard.trustedImport =
    t.isHarmless Settings.standard.trustedImport := by
  rw [Bool.eq_iff_iff, isHarmless_eq_true_iff, isHarmless_eq_true_iff]
  refine forall₂_congr fun c hc => forall₂_congr fun p hp => ?_
  rw [occursIn_crlf (isEvenAnywhere_patterns c hc p hp)]

/-! ### Repairs -/

namespace Repair

/-- The first repair turns the longer spelling into the shorter one, and the others find the same
then. -/
theorem text_repair_crlf (h : '\r' ∉ t) :
    (repair .standard (crlf t)).text = (repair .standard t).text := by
  by_cases hn : '\n' ∈ t
  · obtain ⟨rest, hrest⟩ : ∃ rest, catalogue .standard = normalizeNewlines :: rest := ⟨_, rfl⟩
    have hreturn : '\r' ∈ crlf t := by
      obtain ⟨a, b, rfl⟩ := List.append_of_mem hn
      rw [crlf_append, crlf_newline]
      simp
    have hne : t ≠ crlf t := fun he => h (he ▸ hreturn)
    -- the shorter text is left as it is, and the longer one becomes it at no cost
    have hidle : attempt (begin t) normalizeNewlines = begin t :=
      attempt_of_isIdle (isIdle_sure (if_neg (by rwa [List.contains_iff_mem])))
    have hpropose : normalizeNewlines.propose (crlf t) = .ok (some t) := by
      have hdetect : normalizeNewlines.detect (crlf t) = .ok (some carriageReturn) :=
        congrArg Except.ok (if_pos (List.contains_iff_mem.mpr hreturn))
      have haction : normalizeNewlines.action (crlf t) = .ok t :=
        congrArg Except.ok (universalNewlines_crlf h)
      rw [propose, hdetect]
      dsimp only
      rw [haction]
      rfl
    have hfirst : attempt (begin (crlf t)) normalizeNewlines =
        (begin t).behind ["normalize_newlines".toList] :=
      attempt_of_propose (p := begin (crlf t)) hpropose hne (Nat.le_of_eq (cost_crlf t).symm)
    rw [repair, repair, runAll, runAll, hrest, List.foldl_cons, List.foldl_cons, hfirst, hidle,
      foldl_attempt_behind]
    rfl
  · rw [crlf_eq_self hn]

end Repair

/-! ### Runs -/

namespace Sanitize

/-- What is prepared does not depend on the spelling. -/
theorem code_prepare_crlf (supply : Tsx.Filling.Supply) (h : '\r' ∉ t) :
    (prepare .standard supply (crlf t)).code = (prepare .standard supply t).code := by
  simp only [prepare, Repair.text_repair_crlf h]

/-- Whether a text comes to the checks of the contract. -/
def IsAdmitted (cfg : Settings) (raw : Text) : Prop :=
  allBlank raw = false ∧ (raw.length : Int) ≤ cfg.maxInputChars ∧
    raw.isHarmless cfg.trustedImport = true

/-- Code is accepted if it fulfils the contract and is an admitted text without the blanks around
it, or what is prepared from one that does not fulfil the contract. -/
theorem accepted_iff {cfg : Settings} {raw code : Text} :
    (sanitize cfg supply raw).verdict = .accepted code ↔ IsAdmitted cfg raw ∧
      Contract.defects cfg code = [] ∧ (code = trim raw ∨
        Contract.defects cfg (trim raw) ≠ [] ∧ code = (prepare cfg supply (trim raw)).code) := by
  have hne (ds : List Defect) : Verdict.rejected ds ≠ .accepted code := Verdict.noConfusion
  unfold sanitize
  split
  · next hblank => exact iff_of_false (hne _) fun h => by simp [h.1.1] at hblank
  split
  · next hlong => exact iff_of_false (hne _) fun h => absurd h.1.2.1 (Int.not_le.mpr hlong)
  next hblank hlong =>
  split
  · next hviolations =>
    have hadmitted : IsAdmitted cfg raw := ⟨Bool.not_eq_true _ ▸ hblank, Int.not_lt.mp hlong,
      List.isEmpty_iff.mpr hviolations⟩
    rw [and_iff_right hadmitted, contractPath]
    split
    · next hdefects =>
      rw [List.isEmpty_iff] at hdefects
      rw [Verdict.accepted.injEq]
      refine ⟨fun he => ⟨he ▸ hdefects, .inl he.symm⟩, ?_⟩
      rintro ⟨-, rfl | ⟨hne, -⟩⟩
      · rfl
      · exact absurd hdefects hne
    · next hdefects =>
      rw [List.isEmpty_iff] at hdefects
      rw [repairPath]
      split
      · next hafter =>
        rw [List.isEmpty_iff] at hafter
        rw [Verdict.accepted.injEq]
        refine ⟨fun he => ⟨he ▸ hafter, .inr ⟨hdefects, he.symm⟩⟩, ?_⟩
        rintro ⟨hcode, rfl | ⟨-, rfl⟩⟩
        · exact absurd hcode hdefects
        · rfl
      · next hafter =>
        rw [List.isEmpty_iff] at hafter
        refine iff_of_false (hne _) ?_
        rintro ⟨hcode, rfl | ⟨-, rfl⟩⟩
        · exact hdefects hcode
        · exact hafter hcode
  · next v vs hviolations =>
    refine iff_of_false (hne _) fun h => ?_
    have hharmless := h.1.2.2
    rw [isHarmless, hviolations] at hharmless
    cases hharmless

section

variable {cfg : Settings} {raw code : Text}

theorem accepted_iff_of_fulfils (h : Contract.defects cfg (trim raw) = []) :
    (sanitize cfg supply raw).verdict = .accepted code ↔
      IsAdmitted cfg raw ∧ code = trim raw := by
  rw [accepted_iff]
  refine and_congr_right fun _ => ⟨?_, fun he => ⟨he ▸ h, .inl he⟩⟩
  rintro ⟨-, he | ⟨hne, -⟩⟩
  · exact he
  · exact absurd h hne

theorem accepted_iff_of_fails (h : Contract.defects cfg (trim raw) ≠ []) :
    (sanitize cfg supply raw).verdict = .accepted code ↔
      (IsAdmitted cfg raw ∧ Contract.defects cfg (prepare cfg supply (trim raw)).code = []) ∧
        code = (prepare cfg supply (trim raw)).code := by
  rw [accepted_iff, and_assoc]
  refine and_congr_right fun _ => ⟨?_, fun ⟨hd, he⟩ => ⟨he ▸ hd, .inr ⟨h, he⟩⟩⟩
  rintro ⟨hd, rfl | ⟨-, rfl⟩⟩
  · exact absurd hd h
  · exact ⟨hd, rfl⟩

end

theorem isAdmitted_crlf (hlength : ((crlf t).length : Int) ≤ Settings.standard.maxInputChars) :
    IsAdmitted .standard (crlf t) ↔ IsAdmitted .standard t := by
  have hle := length_le_length_crlf t
  have hlength' : (t.length : Int) ≤ Settings.standard.maxInputChars := by omega
  rw [IsAdmitted, IsAdmitted, allBlank_crlf, isHarmless_crlf]
  simp only [hlength, hlength']

/-- Two runs agree if both accept or both reject, and accepted codes differ in line ends only. -/
def Agree (r r' : Result) : Prop :=
  r.verdict.isAccepted = r'.verdict.isAccepted ∧ ∀ c c', r.verdict = .accepted c →
    r'.verdict = .accepted c' →
      c.replace ['\r', '\n'] ['\n'] = c'.replace ['\r', '\n'] ['\n']

/-- Runs that accept under the same condition, and one code each, agree if these codes do. -/
theorem Agree.of_iff {r r' : Result} {A A' : Prop} {q q' : Text}
    (h : ∀ c, r.verdict = .accepted c ↔ A ∧ c = q)
    (h' : ∀ c, r'.verdict = .accepted c ↔ A' ∧ c = q') (hA : A ↔ A')
    (hq : A → q.replace ['\r', '\n'] ['\n'] = q'.replace ['\r', '\n'] ['\n']) : Agree r r' := by
  by_cases ha : A
  · rw [Agree, (h q).mpr ⟨ha, rfl⟩, (h' q').mpr ⟨hA.mp ha, rfl⟩]
    refine ⟨rfl, ?_⟩
    rintro _ _ ⟨⟩ ⟨⟩
    exact hq ha
  · have hreject {v : Verdict} (hv : ∀ c, v ≠ .accepted c) : v.isAccepted = false := by
      cases v with
      | accepted c => exact absurd rfl (hv c)
      | rejected ds => rfl
    refine ⟨?_, fun c _ hc => absurd ((h c).mp hc).1 ha⟩
    rw [hreject fun c hc => ha ((h c).mp hc).1,
      hreject fun c hc => ha (hA.mpr ((h' c).mp hc).1)]

/-- The spelling of line ends does not change the verdict, unless all that the contract reports of a
harmless text is the block of an `else` that is opened at the end of a line. Such a text is accepted
as it stands in the longer spelling, and not so in the shorter one. -/
theorem agree_crlf (hreturn : '\r' ∉ t)
    (hlength : ((crlf t).length : Int) ≤ Settings.standard.maxInputChars) :
    (¬ (t.isHarmless Settings.standard.trustedImport = true ∧
        Contract.defects .standard (trim t) = [Contract.emptyElseDefect]) →
      Agree (sanitize .standard supply t) (sanitize .standard supply (crlf t))) ∧
    (t.isHarmless Settings.standard.trustedImport = true →
      Contract.defects .standard (trim t) = [Contract.emptyElseDefect] →
        (sanitize .standard supply (crlf t)).verdict = .accepted (crlf (trim t)) ∧
          (sanitize .standard supply t).verdict ≠ .accepted (trim t)) := by
  have htrimmed : '\r' ∉ trim t := by
    obtain ⟨l, r, ht, -, -⟩ := exists_trim t
    rw [ht] at hreturn
    simp only [List.mem_append, not_or] at hreturn
    exact hreturn.2.1
  have hcontract := Contract.defects_crlf_eq_nil_iff (t := trim t)
  have hadmitted := isAdmitted_crlf hlength
  rw [← trim_crlf] at hcontract
  constructor
  · intro hexcept
    -- both spellings fulfil the contract, or the longer one only, or neither of them
    by_cases hnone : Contract.defects .standard (trim t) = []
    · refine .of_iff (fun _ => accepted_iff_of_fulfils hnone)
        (fun _ => accepted_iff_of_fulfils (hcontract.mpr (.inl hnone))) hadmitted.symm fun _ => ?_
      rw [trim_crlf, replace_crlf htrimmed, replace_of_not_mem htrimmed]
    by_cases hnone' : Contract.defects .standard (trim (crlf t)) = []
    · have hout : ¬ IsAdmitted .standard t := fun h =>
        hexcept ⟨h.2.2, (hcontract.mp hnone').resolve_left hnone⟩
      exact .of_iff (fun _ => accepted_iff_of_fails hnone) (fun _ => accepted_iff_of_fulfils hnone')
        (iff_of_false (fun h => hout h.1) (mt hadmitted.mp hout)) fun h => absurd h.1 hout
    · refine .of_iff (fun _ => accepted_iff_of_fails hnone) (fun _ => accepted_iff_of_fails hnone')
        ?_ fun _ => ?_
      · rw [hadmitted, trim_crlf, code_prepare_crlf supply htrimmed]
      · rw [trim_crlf, code_prepare_crlf supply htrimmed]
  · intro hharmless hdefects
    have hnone := hcontract.mpr (.inr hdefects)
    have hblank : allBlank t = false := by
      rw [← allBlank_crlf, ← allBlank_trim]
      exact Contract.not_allBlank_of_defects hnone
    have hle := length_le_length_crlf t
    refine ⟨?_, fun h => ?_⟩
    · rw [accepted_iff_of_fulfils hnone, hadmitted, trim_crlf]
      exact ⟨⟨hblank, by omega, hharmless⟩, rfl⟩
    · have hfulfils := (accepted_spec h).2.1
      rw [hdefects] at hfulfils
      cases hfulfils

/-- A component with a line end in it and one brace too many behind it. -/
def strayBraceBelow : Text :=
  "function GeneratedLesson()\x7breturn <p/>\x7drender(<GeneratedLesson />);\n\x7d".toList

/-- A component that opens the block of an `else` at the end of a line. -/
def openElse : Text :=
  ("function GeneratedLesson()\x7bif(a)\x7bb()\x7d else \x7b\n\x7d;return <p/>\x7d" ++
    "render(<GeneratedLesson />);").toList

theorem agree_crlf_strayBraceBelow_openElse :
    Agree (sanitize .standard .notInstalled strayBraceBelow)
        (sanitize .standard .notInstalled (crlf strayBraceBelow)) ∧
      (sanitize .standard .notInstalled (crlf openElse)).verdict = .accepted (crlf openElse) ∧
      (sanitize .standard .notInstalled openElse).verdict ≠ .accepted openElse := by
  have htrim : trim openElse = openElse := by decide
  refine ⟨(agree_crlf (by decide) (by decide +kernel)).1 (by decide +kernel), ?_⟩
  have h := (@agree_crlf openElse .notInstalled (by decide) (by decide +kernel)).2
    (by decide +kernel) (by decide +kernel)
  rwa [htrim] at h

end Sanitize

end SnippetGate
