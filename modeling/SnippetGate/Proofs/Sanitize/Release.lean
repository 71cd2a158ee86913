import SnippetGate.Proofs.Component.Isolated
import SnippetGate.Proofs.Repair.Run
import SnippetGate.Proofs.Sanitize.FixedPoint
import SnippetGate.Sanitize

/-!
# Which repairs release denied code

The deny list is checked on the raw text alone. Most repairs bring no denied code about, and
neither does isolating the component. The others are listed here.
-/

namespace SnippetGate

open Sanitize

/-- The names of the repairs that can bring denied code about. -/
def leaky : List Text :=
  ["strip_markdown_fences", "strip_module_declarations", "fix_set_answer", "adopt_entry_point",
    "fill_known_handlers", "strip_orphan_svg", "repair_tag_pairs", "ast_fill_reset_handler",
    "ast_fill_reveal_handler", "ast_fill_conditional"].map String.toList

/-! ### Repairs -/

namespace Repair

theorem avoids_signature {s : Signature} (h : s ∈ Signature.catalogue) :
    s.name ∈ leaky ∨ ∀ r ∈ ofSignature? s, r.Avoids Denied := by
  simp only [Signature.catalogue, List.mem_cons, List.not_mem_nil, or_false] at h
  rcases h with rfl | rfl | rfl | rfl | rfl | rfl | rfl | rfl | rfl | rfl | rfl
  · exact .inr (avoids_ofSignature? rfl fun _ => Signature.denied_of_fusedInput)
  · exact .inr (avoids_ofSignature? rfl fun _ => Signature.denied_of_fusedButton)
  · exact .inr (avoids_ofSignature? rfl fun _ => Signature.denied_of_fusedBorderRounded)
  · exact .inr (avoids_ofSignature? rfl fun _ => Signature.denied_of_fusedRoundedDisabled)
  · exact .inr (avoids_ofSignature? rfl fun _ => Signature.mendsWell_doubledEvent.of_replaceAll)
  · exact .inl (by decide)
  · exact .inr (avoids_ofSignature? rfl fun _ => Signature.mendsWell_emptyElse.of_replaceAll)
  · exact .inr nofun
  · exact .inr nofun
  · exact .inr nofun
  · exact .inl (by decide)

theorem avoids_ofTier {tier : Tier} {r : Repair} (h : r ∈ ofTier tier) :
    r.name ∈ leaky ∨ r.Avoids Denied := by
  obtain ⟨s, hs, hr⟩ := List.mem_filterMap.mp h
  have hname : r.name = s.name := by
    obtain ⟨action, -, rfl⟩ := Option.map_eq_some_iff.mp hr
    rfl
  rw [hname]
  exact (avoids_signature (List.mem_filter.mp hs).1).imp_right fun h => h r hr

/-- The repairs that are tried before the endings are looked at. -/
def opening (cfg : Settings) : List Repair :=
  [normalizeNewlines, stripFences, stripModule cfg] ++ ofTier .typo ++ [adoptEntryPoint cfg] ++
    ofTier .conditional ++ [fillHandlers, stripTail cfg]

/-- The repairs of the endings and of what is not closed. -/
def closing (cfg : Settings) : List Repair :=
  [collapseUnits cfg, collapseReturnClose, stripOrphanClosers] ++ ofTier .duplication ++
    [mendTagPairs cfg, appendClosers cfg]

theorem catalogue_eq (cfg : Settings) : catalogue cfg = opening cfg ++ closing cfg := by
  simp [catalogue, opening, closing]

theorem avoids_opening {r : Repair} (h : r ∈ opening .standard) :
    r.name ∈ leaky ∨ r.Avoids Denied := by
  simp only [opening, List.mem_append, List.mem_cons, List.not_mem_nil, or_false] at h
  rcases h with ((((rfl | rfl | rfl) | h) | rfl) | h) | (rfl | rfl)
  · exact .inr (avoids_sure fun _ => Denied.of_universalNewlines)
  · exact .inl (by decide)
  · exact .inl (by decide)
  · exact avoids_ofTier h
  · exact .inl (by decide)
  · exact avoids_ofTier h
  · exact .inl (by decide)
  · exact .inr (avoids_sure fun _ => denied_of_withoutTailJunk)

/-- Behind the first repairs an import counts only if it is calm. -/
theorem avoids_closing {r : Repair} (h : r ∈ closing .standard) :
    r.name ∈ leaky ∨ r.Avoids (DeniedFor Calm) := by
  have hsvg : ∀ r ∈ ofTier .duplication, r.name ∈ leaky := by decide
  simp only [closing, List.mem_append, List.mem_cons, List.not_mem_nil, or_false] at h
  rcases h with ((rfl | rfl | rfl) | h) | (rfl | rfl)
  · exact .inr (avoids_sure fun _ => denied_of_withoutDuplicates)
  · exact .inr (avoids_sure fun _ => mendsWell_doubledReturnClose.of_replaceAll)
  · exact .inr (avoids_sure fun _ => mendsWell_orphanClosers.of_replaceAll)
  · exact .inl (hsvg r h)
  · exact .inl (by decide)
  · exact .inr (avoids_sure fun _ => denied_of_withClosers)

/-- Without those repairs a text is denied if its repaired form is, with calm imports. -/
theorem denied_of_repair {t : Text} {R : List Text} (hleaky : ∀ name ∈ leaky, name ∉ R)
    (hR : (repair .standard t).applied ⊆ R) (hd : DeniedFor Calm (repair .standard t).text) :
    Denied t := by
  rw [repair, runAll, catalogue_eq, List.foldl_append] at hR hd
  refine avoids_foldl (fun r hr hname => ?_) (List.Subset.trans (applied_subset_foldl _ _) hR)
    (avoids_foldl (fun r hr hname => ?_) hR hd).denied
  · exact (avoids_opening hr).resolve_left fun h => hleaky _ h hname
  · exact (avoids_closing hr).resolve_left fun h => hleaky _ h hname

end Repair

/-! ### Filling -/

namespace Edit

/-- The first of the edits in order is carried out. -/
theorem exists_mem_chosen {es : List Edit} (h : es ≠ []) : ∃ e ∈ es, e ∈ chosen es := by
  have hperm : (sorted es).Perm es := List.mergeSort_perm ..
  cases hs : sorted es with
  | nil => exact absurd (hs ▸ hperm).nil_eq.symm h
  | cons e rest =>
    refine ⟨e, hperm.subset (by simp [hs]), ?_⟩
    rw [chosen, hs, disjointFrom, if_neg (Nat.not_lt_zero _)]
    exact List.mem_cons_self

end Edit

namespace Tsx.Filling

theorem handlerRepair_mem_leaky {role : Role} (h : role.isFilledInText = false) :
    handlerRepair role ∈ leaky := by
  cases role with
  | submit => cases h
  | advance => cases h
  | reset => decide
  | reveal => decide

/-- The edits have the names of repairs that can bring denied code about. -/
theorem name_mem_leaky {p : Program} {n : Node} {e : Edit} (h : nodeEdit? p n = some e) :
    e.name ∈ leaky := by
  unfold nodeEdit? at h
  cases hh : handlerEdit? p n with
  | some e' =>
    rw [hh] at h
    obtain rfl := Option.some.inj h
    simp only [handlerEdit?, Option.bind_eq_bind, Option.bind_eq_some_iff, Option.pure_def,
      Option.some.injEq] at hh
    obtain ⟨⟨name, body⟩, -, role, -, _, hguard, -, -, rfl⟩ := hh
    refine handlerRepair_mem_leaky ?_
    rw [guard] at hguard
    split at hguard
    · next hg => simp_all
    · cases hguard
  | none =>
    rw [hh] at h
    have h' : conditionalEdit? p n = some e := h
    simp only [conditionalEdit?, Option.bind_eq_bind, Option.bind_eq_some_iff, Option.pure_def,
      Option.some.injEq] at h'
    obtain ⟨-, -, -, -, -, -, -, -, ⟨first, second⟩, -, rfl⟩ := h'
    show conditionalRepair ∈ leaky
    decide

/-- Filling leaves the text as it is or notes such a repair. -/
theorem leaky_of_fill (grammar : Text) (supply : Supply) (t : Text) :
    (fill grammar supply t).text = t ∨ ∃ name ∈ leaky, name ∈ (fill grammar supply t).applied := by
  refine (fill_cases grammar supply t).imp And.left fun ⟨_, root, hes, _, ha⟩ => ?_
  obtain ⟨e, he, hkept⟩ := Edit.exists_mem_chosen hes
  obtain ⟨n, -, hn⟩ := List.mem_filterMap.mp he
  refine ⟨e.name, name_mem_leaky hn, ha ▸ ?_⟩
  simpa [Edit.splice] using ⟨e, hkept, rfl⟩

/-- Filling notes no other repairs. -/
theorem applied_fill_subset (grammar : Text) (supply : Supply) (t : Text) :
    (fill grammar supply t).applied ⊆ leaky := by
  intro name hname
  rcases fill_cases grammar supply t with ⟨-, ha⟩ | ⟨-, root, -, -, ha⟩
  · rw [ha] at hname
    cases hname
  · rw [← ha, Edit.splice, List.mem_eraseDups, List.mem_map] at hname
    obtain ⟨e, he, rfl⟩ := hname
    obtain ⟨n, -, hn⟩ := List.mem_filterMap.mp (Edit.mem_of_mem_chosen he)
    exact name_mem_leaky hn

end Tsx.Filling

/-! ### Runs -/

namespace Sanitize

variable {supply : Tsx.Filling.Supply} {raw t code : Text} {R : List Text}

theorem wordless_canonicalMount : Wordless Settings.standard.canonicalMount := by decide

/-- What is prepared without those repairs and fulfils the contract holds no denied code if the text
does not. -/
theorem denied_of_prepare (hR : (prepare .standard supply t).repairs ⊆ R)
    (hleaky : ∀ name ∈ leaky, name ∉ R)
    (hmount : Contract.checkMount .standard (prepare .standard supply t).code = [])
    (hd : Denied (prepare .standard supply t).code) : Denied t := by
  have hP : Forgets fun k _ => ¬ Mounts k := fun _ _ _ h => h
  replace hd : DeniedFor (fun k _ => ¬ Mounts k) (prepare .standard supply t).code :=
    DeniedFor.mono hd fun _ _ _ hi _ => not_mounts_of_checkMount hmount hi
  clear hmount
  simp only [prepare] at hR hd
  generalize hcode : Text.trim (Component.ofText .standard
    (Repair.repair .standard t).text).text = code at hR hd
  have hfill : DeniedFor (fun k _ => ¬ Mounts k) code := by
    rw [if_pos (show Settings.standard.treeRepair = true from rfl)] at hR hd
    rcases Tsx.Filling.leaky_of_fill Settings.standard.grammar supply code with h | ⟨name, hl, ha⟩
    · rwa [h] at hd
    · exact absurd (hR (List.mem_append_right _ ha)) (hleaky name hl)
  subst hcode
  have hrepaired := Component.deniedFor_of_ofText hP wordless_canonicalMount (hfill.of_trim hP)
  refine Repair.denied_of_repair hleaky (fun name h => hR ?_)
    (hrepaired.mono fun _ _ _ _ h => .inl h)
  exact List.mem_append_left _ (List.mem_append_left _ h)

/-- A run without those repairs releases no denied code. -/
theorem isHarmless_of_accepted (hleaky : ∀ name ∈ leaky, name ∉ (sanitize .standard supply raw).repairs)
    (ha : (sanitize .standard supply raw).verdict = .accepted code) :
    code.isHarmless Settings.standard.trustedImport = true := by
  unfold sanitize at ha hleaky
  split at ha
  · cases ha
  split at ha
  · cases ha
  next hblank hlong =>
  rw [if_neg hblank, if_neg hlong] at hleaky
  split at ha
  · next hnone =>
    rw [hnone] at hleaky
    have hraw : ¬ Denied (Text.trim raw) := fun h =>
      isHarmless_iff.mp (by rw [Text.isHarmless]; exact List.isEmpty_iff.mpr hnone)
        (h.of_trim fun _ _ _ _ => trivial)
    refine isHarmless_iff.mpr fun hd => ?_
    simp only [contractPath] at ha hleaky
    split at ha
    · obtain rfl := Verdict.accepted.inj ha
      exact hraw hd
    · next hdefects =>
      rw [if_neg hdefects] at hleaky
      simp only [repairPath] at ha hleaky
      split at ha
      · next hafter =>
        rw [if_pos hafter] at hleaky
        obtain rfl := Verdict.accepted.inj ha
        have hmount := List.isEmpty_iff.mp hafter
        simp only [Contract.defects, List.append_eq_nil_iff] at hmount
        exact hraw (denied_of_prepare (List.Subset.refl _) hleaky hmount.1.1.1.1.2 hd)
      · cases ha
  · cases ha

theorem isHarmless_of_accepted_strayBrace :
    Text.isHarmless
      "function GeneratedLesson()\x7breturn <p/>\x7d\n\nrender(<GeneratedLesson />);".toList
      Settings.standard.trustedImport = true := by
  obtain ⟨haccepted, hrepairs⟩ := sanitize_strayBrace
  exact isHarmless_of_accepted (by rw [hrepairs]; decide) haccepted

end Sanitize

end SnippetGate
