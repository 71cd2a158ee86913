import SnippetGate.Proofs.Denylist.Context
import SnippetGate.Proofs.Repair.Rounds
import SnippetGate.Proofs.Sanitize.LineEnds
import SnippetGate.Proofs.Sanitize.Release

/-!
# Every result is coherent

A run ends in one of six ways, and in each of them the verdict, the stage and the noted repairs are
known. So the parts of a result agree with each other, whatever the settings and the parser are.
-/

namespace SnippetGate

variable {cfg : Settings} {supply : Tsx.Filling.Supply} {raw t : Text}

/-! ### The parts of a result -/

/-- The contract finds defects of the structure only. -/
theorem Contract.category_of_mem_defects {d : Defect} (h : d ∈ defects cfg t) :
    d.category = .structural := by
  simp only [defects, List.mem_append] at h
  rcases h with ((((h | h) | h) | h) | h) | h
  · rw [checkEntryPoint] at h
    split at h <;> grind [Defect.category]
  · rw [checkMount] at h
    grind [Defect.category]
  · rw [checkReturn] at h
    grind [Defect.category]
  · rw [checkModule] at h
    grind [Defect.category]
  · obtain ⟨s, -, hs⟩ := List.mem_filterMap.mp h
    obtain ⟨fragment, -, rfl⟩ := Option.map_eq_some_iff.mp hs
    rfl
  · obtain ⟨issue, -, rfl⟩ := List.mem_map.mp h
    rfl

namespace Repair

/-- No repair of the catalogue has the name of the repair that closes what was cut off. -/
theorem name_ne_truncationRepair {r : Repair} (h : r ∈ catalogue cfg) :
    r.name ≠ Sanitize.truncationRepair := by
  have hsure {name : String} {tier : Tier} {detect : Text → Option Text} {action : Text → Text}
      (h : name.toList ≠ Sanitize.truncationRepair) :
      (sure name tier detect action).name ≠ Sanitize.truncationRepair := h
  have hsignature : ∀ s ∈ Signature.catalogue, s.name ≠ Sanitize.truncationRepair := by decide
  have htier {tier : Tier} (h : r ∈ ofTier tier) : r.name ≠ Sanitize.truncationRepair := by
    obtain ⟨s, hs, hname⟩ := exists_signature_of_mem_ofTier h
    exact hname ▸ hsignature s hs
  simp only [catalogue, List.mem_append, List.mem_cons, List.not_mem_nil, or_false] at h
  rcases h with ((((((rfl | rfl | rfl) | h) | rfl) | h) | rfl | rfl | rfl | rfl | rfl) | h) |
    rfl | rfl
  · exact hsure (by decide)
  · exact hsure (by decide)
  · exact hsure (by decide)
  · exact htier h
  · show String.toList "adopt_entry_point" ≠ Sanitize.truncationRepair
    decide
  · exact htier h
  · exact hsure (by decide)
  · exact hsure (by decide)
  · exact hsure (by decide)
  · exact hsure (by decide)
  · exact hsure (by decide)
  · exact htier h
  · exact hsure (by decide)
  · exact hsure (by decide)

end Repair

namespace Sanitize

/-- The name of the repair that closes what was cut off is noted if the component was cut off, and
no other repair has this name. -/
theorem truncationRepair_mem_repairs : truncationRepair ∈ (prepare cfg supply t).repairs ↔
    (prepare cfg supply t).isTruncated = true := by
  have hrepair : truncationRepair ∉ (Repair.repair cfg t).applied := fun h => by
    obtain ⟨r, hr, hname⟩ := List.mem_map.mp ((Repair.runs_runAll _ t).names_subset h)
    exact Repair.name_ne_truncationRepair hr hname
  have hleaky : truncationRepair ∉ leaky := by decide
  have hfill (code : Text) : truncationRepair ∉ (if cfg.treeRepair then
      Tsx.Filling.fill cfg.grammar supply code else { text := code }).applied := by
    split
    · exact fun h => hleaky (Tsx.Filling.applied_fill_subset _ _ _ h)
    · exact List.not_mem_nil
  simp only [prepare, List.mem_append, hrepair, hfill, false_or, or_false]
  split
  · next h => simp [h]
  · next h => simp [h]

/-! ### The end of a run -/

/-- The ways in which a run ends, with its verdict, its stage and the repairs that are noted. -/
inductive Ends (cfg : Settings) (supply : Tsx.Filling.Supply) (raw : Text) :
    Verdict → Stage → List Text → Prop where
  | blank (h : Text.allBlank raw = true) :
      Ends cfg supply raw (.rejected [.emptyInput]) .input []
  | long (h : Text.allBlank raw = false) (hlong : cfg.maxInputChars < raw.length) :
      Ends cfg supply raw (.rejected [.inputTooLarge raw.length cfg.maxInputChars]) .input []
  | denied (h : Text.allBlank raw = false) (hlength : (raw.length : Int) ≤ cfg.maxInputChars)
      (hdenied : raw.isHarmless cfg.trustedImport = false) :
      Ends cfg supply raw (.rejected ((raw.violations cfg.trustedImport).map .denied)) .security []
  | sound (h : IsAdmitted cfg raw) (hdefects : Contract.defects cfg (Text.trim raw) = []) :
      Ends cfg supply raw (.accepted (Text.trim raw)) .precheck []
  | mended (h : IsAdmitted cfg raw)
      (hdefects : Contract.defects cfg (prepare cfg supply (Text.trim raw)).code = []) :
      Ends cfg supply raw (.accepted (prepare cfg supply (Text.trim raw)).code) .final
        (prepare cfg supply (Text.trim raw)).repairs
  | unmended (h : IsAdmitted cfg raw)
      (hdefects : Contract.defects cfg (prepare cfg supply (Text.trim raw)).code ≠ []) :
      Ends cfg supply raw
        (.rejected (Contract.defects cfg (prepare cfg supply (Text.trim raw)).code ++
          if (prepare cfg supply (Text.trim raw)).isTruncated then [.truncatedOutput] else []))
        .final (prepare cfg supply (Text.trim raw)).repairs

/-- Every run ends in one of these ways. -/
theorem ends_sanitize (cfg : Settings) (supply : Tsx.Filling.Supply) (raw : Text) :
    Ends cfg supply raw (sanitize cfg supply raw).verdict (sanitize cfg supply raw).stage
      (sanitize cfg supply raw).repairs := by
  unfold sanitize
  split
  · next hblank => exact .blank hblank
  split
  · next hblank hlong => exact .long (Bool.not_eq_true _ ▸ hblank) hlong
  next hblank hlong =>
  rw [Bool.not_eq_true] at hblank
  rw [Int.not_lt] at hlong
  split
  · next hviolations =>
    have hadmitted : IsAdmitted cfg raw :=
      ⟨hblank, hlong, List.isEmpty_iff.mpr hviolations⟩
    rw [contractPath]
    split
    · next hdefects => exact .sound hadmitted (List.isEmpty_iff.mp hdefects)
    · rw [repairPath]
      split
      · next hafter => exact .mended hadmitted (List.isEmpty_iff.mp hafter)
      · next hafter => exact .unmended hadmitted (mt List.isEmpty_iff.mpr hafter)
  · next v vs hviolations =>
    have hdenied : raw.isHarmless cfg.trustedImport = false := by
      rw [Text.isHarmless, hviolations]
      rfl
    rw [← hviolations]
    exact .denied hblank hlong hdenied

/-! ### Coherence -/

/-- The result accepts a text with this code. -/
structure Accepts (cfg : Settings) (r : Result) (code : Text) : Prop where
  isAccepted : r.verdict.isAccepted = true
  code? : r.verdict.code? = some code
  trim : Text.trim code = code
  contract : Contract.accepts cfg code = true
  errors : r.verdict.errors = []
  defects : r.verdict.defects = []
  stage : r.stage = .precheck ∧ r.repairs = [] ∨ r.stage = .final

/-- The result rejects a text, and says why. -/
structure Rejects (r : Result) : Prop where
  isAccepted : r.verdict.isAccepted = false
  code? : r.verdict.code? = none
  defects : r.verdict.defects ≠ []
  errors : r.verdict.errors = r.verdict.defects.map Defect.line

/-- The parts of a result for a raw text agree with each other. -/
structure Coherent (cfg : Settings) (supply : Tsx.Filling.Supply) (raw : Text) (r : Result) :
    Prop where
  /-- The text is accepted or rejected, and not both. -/
  verdict : Xor (∃ code, Accepts cfg r code) (Rejects r)
  /-- A text is rejected for denied code if it is neither blank nor too long and not harmless. -/
  security : r.verdict.isAccepted = false ∧ r.stage = .security ↔ Text.allBlank raw = false ∧
    (raw.length : Int) ≤ cfg.maxInputChars ∧ raw.isHarmless cfg.trustedImport = false
  /-- It is rejected for that code alone, once for each category of which a pattern occurs. -/
  denied : r.stage = .security → r.repairs = [] ∧
    r.verdict.defects = (raw.violations cfg.trustedImport).map .denied ∧
    (raw.violations cfg.trustedImport).map Violation.category =
      DenyCategory.all.filter fun c =>
        (c.patterns cfg.trustedImport).any fun p => p.occursIn raw
  /-- A rejection at the end tells last that the component was cut off, if it was. -/
  truncation : r.verdict.isAccepted = false → r.stage = .final →
    ((∃ d ∈ r.verdict.defects.getLast?, d.category = .truncation) ↔
      (Component.ofText cfg (Repair.repair cfg (Text.trim raw)).text).mode = .truncated) ∧
    ((Component.ofText cfg (Repair.repair cfg (Text.trim raw)).text).mode = .truncated ↔
      truncationRepair ∈ r.repairs)

namespace Ends

variable {r : Result}

theorem accepts_or_rejects (h : Ends cfg supply raw r.verdict r.stage r.repairs) :
    (∃ code, Accepts cfg r code) ∨ Rejects r := by
  obtain ⟨verdict, stage, _, repairs, _⟩ := r
  dsimp only at h
  cases h with
  | blank h => exact .inr ⟨rfl, rfl, List.cons_ne_nil _ _, rfl⟩
  | long h hlong => exact .inr ⟨rfl, rfl, List.cons_ne_nil _ _, rfl⟩
  | denied h hlength hdenied =>
    refine .inr ⟨rfl, rfl, fun hnil => ?_, rfl⟩
    rw [Text.isHarmless, List.map_eq_nil_iff.mp hnil] at hdenied
    cases hdenied
  | sound h hdefects =>
    exact .inl ⟨_, rfl, rfl, (Text.isTrimmed_trim raw).trim_eq, List.isEmpty_iff.mpr hdefects, rfl,
      rfl, .inl ⟨rfl, rfl⟩⟩
  | mended h hdefects =>
    exact .inl ⟨_, rfl, rfl, isTrimmed_prepare.trim_eq, List.isEmpty_iff.mpr hdefects, rfl, rfl,
      .inr rfl⟩
  | unmended h hdefects =>
    exact .inr ⟨rfl, rfl, fun hnil => hdefects (List.append_eq_nil_iff.mp hnil).1, rfl⟩

theorem security_iff (h : Ends cfg supply raw r.verdict r.stage r.repairs) :
    r.verdict.isAccepted = false ∧ r.stage = .security ↔ Text.allBlank raw = false ∧
      (raw.length : Int) ≤ cfg.maxInputChars ∧ raw.isHarmless cfg.trustedImport = false := by
  obtain ⟨verdict, stage, _, repairs, _⟩ := r
  dsimp only at h ⊢
  have harmless (h : IsAdmitted cfg raw) : raw.isHarmless cfg.trustedImport ≠ false := by
    rw [h.2.2]
    decide
  cases h with
  | blank h => exact iff_of_false nofun fun h' => by rw [h] at h'; cases h'.1
  | long h hlong => exact iff_of_false nofun fun h' => absurd hlong (Int.not_lt.mpr h'.2.1)
  | denied h hlength hdenied => exact iff_of_true ⟨rfl, rfl⟩ ⟨h, hlength, hdenied⟩
  | sound h hdefects => exact iff_of_false nofun fun h' => harmless h h'.2.2
  | mended h hdefects => exact iff_of_false nofun fun h' => harmless h h'.2.2
  | unmended h hdefects => exact iff_of_false nofun fun h' => harmless h h'.2.2

theorem defects_of_security (h : Ends cfg supply raw r.verdict r.stage r.repairs)
    (hsecurity : r.stage = .security) : r.repairs = [] ∧
      r.verdict.defects = (raw.violations cfg.trustedImport).map .denied := by
  obtain ⟨verdict, stage, _, repairs, _⟩ := r
  dsimp only at h hsecurity ⊢
  subst hsecurity
  cases h with
  | denied => exact ⟨rfl, rfl⟩

/-- The last defect that is reported at the end tells whether the component was cut off. -/
theorem truncation_iff (h : Ends cfg supply raw r.verdict r.stage r.repairs)
    (hrejected : r.verdict.isAccepted = false) (hfinal : r.stage = .final) :
    ((∃ d ∈ r.verdict.defects.getLast?, d.category = .truncation) ↔
      (prepare cfg supply (Text.trim raw)).isTruncated = true) ∧
    r.repairs = (prepare cfg supply (Text.trim raw)).repairs := by
  obtain ⟨verdict, stage, _, repairs, _⟩ := r
  dsimp only at h hrejected hfinal ⊢
  subst hfinal
  cases h with
  | mended => cases hrejected
  | unmended h hdefects =>
    refine ⟨?_, rfl⟩
    simp only [Verdict.defects]
    split
    · next htruncated => exact iff_of_true ⟨_, List.getLast?_concat, rfl⟩ htruncated
    · next hwhole =>
      refine iff_of_false ?_ hwhole
      rintro ⟨d, hd, hcategory⟩
      rw [List.append_nil] at hd
      rw [Contract.category_of_mem_defects (List.mem_of_mem_getLast? hd)] at hcategory
      cases hcategory

end Ends

/-- The result of every run is coherent. -/
theorem coherent_sanitize (cfg : Settings) (supply : Tsx.Filling.Supply) (raw : Text) :
    Coherent cfg supply raw (sanitize cfg supply raw) := by
  have hends := ends_sanitize cfg supply raw
  refine ⟨?_, hends.security_iff, fun hsecurity => ?_, fun hrejected hfinal => ?_⟩
  · rcases hends.accepts_or_rejects with ⟨code, ha⟩ | hr
    · exact .inl ⟨⟨code, ha⟩, fun hr => by cases ha.isAccepted.symm.trans hr.isAccepted⟩
    · exact .inr ⟨hr, fun ⟨code, ha⟩ => by cases ha.isAccepted.symm.trans hr.isAccepted⟩
  · obtain ⟨hrepairs, hdefects⟩ := hends.defects_of_security hsecurity
    exact ⟨hrepairs, hdefects, Text.categories_violations _ _⟩
  · obtain ⟨hlast, hrepairs⟩ := hends.truncation_iff hrejected hfinal
    have hmode : (Component.ofText cfg (Repair.repair cfg (Text.trim raw)).text).mode = .truncated ↔
        (prepare cfg supply (Text.trim raw)).isTruncated = true := (beq_iff_eq ..).symm
    rw [hmode, hrepairs, truncationRepair_mem_repairs]
    exact ⟨hlast, Iff.rfl⟩

end Sanitize

end SnippetGate
