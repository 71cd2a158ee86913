import SnippetGate.Proofs.Component.Span
import SnippetGate.Proofs.Repair.Gate
import SnippetGate.Proofs.Sanitize.Release

/-!
# What is not reported is not rewritten

Code that is accepted without a repair in the list is the trimmed raw text, or a part of it that is
cut out as it stands, with the mount call behind it. The text could not have been left whole: it
would have been accepted before any repair was tried.
-/

namespace SnippetGate

variable {cfg : Settings} {supply : Tsx.Filling.Supply} {raw t code : Text}

/-- Filling that notes no repair leaves the text as it is. -/
theorem Tsx.Filling.text_of_applied_eq_nil {grammar : Text}
    (h : (fill grammar supply t).applied = []) : (fill grammar supply t).text = t := by
  rcases leaky_of_fill grammar supply t with ht | ⟨name, -, hname⟩
  · exact ht
  · rw [h] at hname
    cases hname

namespace Component

variable {m : Match} {before head block rest : Text}

/-- A whole component begins with the keyword of its declaration and ends with a semicolon. -/
theorem Spans.isTrimmed (h : Spans cfg t m before head block rest) :
    Text.IsTrimmed (ofText cfg t).text := by
  obtain ⟨_, p, _, -, -, -, hopening⟩ := exists_parts_of_entryOpening h.found
  have hhead : head = "function".toList ++ p := by
    rw [h.opening, ← List.append_assoc] at hopening
    exact List.append_inj_left' hopening rfl
  rw [h.ofText_eq]
  refine ⟨fun x hx => ?_, fun x hx => ?_⟩
  · rw [hhead] at hx
    obtain rfl := Option.some.inj hx
    decide
  · have hlast : (head ++ (block ++ (separator cfg rest ++ cfg.canonicalMount))).getLast? =
        some ';' := by
      simp only [Settings.canonicalMount, ← List.append_assoc, List.getLast?_concat]
    rw [hlast] at hx
    obtain rfl := Option.some.inj hx
    decide

end Component

namespace Sanitize

open Component

/-- Code is accepted as the trimmed raw text, or as what is prepared from a text that does not
fulfil the contract. -/
theorem accepted_cases (h : (sanitize cfg supply raw).verdict = .accepted code) :
    (sanitize cfg supply raw).stage = .precheck ∧ code = Text.trim raw ∨
      (sanitize cfg supply raw).stage = .final ∧ code = (prepare cfg supply (Text.trim raw)).code ∧
        (sanitize cfg supply raw).repairs = (prepare cfg supply (Text.trim raw)).repairs ∧
        Contract.defects cfg (Text.trim raw) ≠ [] := by
  unfold sanitize at h ⊢
  split at h
  · cases h
  next hblank =>
  split at h
  · cases h
  next hlong =>
  rw [if_neg hblank, if_neg hlong]
  split at h
  · simp only [contractPath] at h ⊢
    split at h
    · next hdefects =>
      rw [if_pos hdefects]
      exact .inl ⟨rfl, (Verdict.accepted.inj h).symm⟩
    · next hdefects =>
      rw [if_neg hdefects]
      simp only [repairPath] at h ⊢
      split at h
      · next hafter =>
        rw [if_pos hafter]
        exact .inr ⟨rfl, (Verdict.accepted.inj h).symm, rfl, mt List.isEmpty_iff.mpr hdefects⟩
      · cases h
  · cases h

/-- What is prepared without any repair is the trimmed component of the text, which is not cut
off. -/
theorem prepare_of_repairs_eq_nil (h : (prepare cfg supply t).repairs = []) :
    (prepare cfg supply t).code = Text.trim (ofText cfg t).text ∧
      (ofText cfg t).mode ≠ .truncated := by
  simp only [prepare, List.append_eq_nil_iff] at h ⊢
  obtain ⟨⟨hrepair, htruncated⟩, hfill⟩ := h
  have hruns := Repair.runs_runAll (Repair.catalogue cfg) t
  have htext : (Repair.repair cfg t).text = t := by
    rw [← Repair.repair, hrepair] at hruns
    exact hruns.eq_of_nil
  rw [htext] at htruncated hfill ⊢
  constructor
  · split
    · next htree =>
      rw [if_pos htree] at hfill
      exact Tsx.Filling.text_of_applied_eq_nil hfill
    · rfl
  · intro hmode
    rw [isTruncated, hmode] at htruncated
    cases htruncated

/-- Code that is accepted at the last stage without a repair is a part of the trimmed raw text, from
the declaration of the entry point to the end of its block, with blanks and the mount call behind
it. Code that is accepted before any repair is the trimmed raw text. -/
theorem verbatim_of_accepted (h : (sanitize cfg supply raw).verdict = .accepted code) :
    ((sanitize cfg supply raw).stage = .precheck → code = Text.trim raw) ∧
      ((sanitize cfg supply raw).stage = .final → (sanitize cfg supply raw).repairs = [] →
        ∃ opening stop gap, cfg.entryOpening.search? (Text.trim raw) = some opening ∧
          (Text.trim raw).blockEnd? (opening.stop - 1) = some stop ∧
          opening.stop ≤ stop ∧ stop ≤ (Text.trim raw).length ∧
          gap ≠ [] ∧ (∀ x ∈ gap, isBlank x = true) ∧
          code = (Text.trim raw).slice opening.start stop ++ (gap ++ cfg.canonicalMount)) := by
  have hcontract := (accepted_spec h).2.1
  rcases accepted_cases h with ⟨hstage, rfl⟩ | ⟨hstage, rfl, hrepairs, hdefects⟩
  · refine ⟨fun _ => rfl, fun hfinal => ?_⟩
    rw [hstage] at hfinal
    cases hfinal
  refine ⟨fun hpre => ?_, fun _ hnil => ?_⟩
  · rw [hstage] at hpre
    cases hpre
  generalize ht : Text.trim raw = t at hrepairs hdefects hcontract ⊢
  have htrimmed : Text.IsTrimmed t := ht ▸ Text.isTrimmed_trim raw
  rw [hrepairs] at hnil
  obtain ⟨hcode, hmode⟩ := prepare_of_repairs_eq_nil hnil
  rw [hcode] at hcontract ⊢
  cases hm : (ofText cfg t).mode with
  | truncated => exact absurd hm hmode
  | missing =>
    -- A text without an entry point stays as it is, and so does not fulfil the contract.
    rw [text_of_missing hm, htrimmed.trim_eq] at hcontract
    exact absurd hcontract hdefects
  | span =>
    obtain ⟨m, before, head, block, rest, hs⟩ := exists_spans_of_mode hm
    rw [hs.isTrimmed.trim_eq, hs.ofText_eq]
    refine ⟨m, _, separator cfg rest, hs.found, hs.ends, ?_, ?_, separator_ne_nil rest,
      fun x => isBlank_of_mem_separator, ?_⟩
    · have hbrace := hs.brace
      obtain ⟨q, x, rfl, -⟩ := hs.bracket
      simp only [List.length_append, List.length_cons] at hbrace ⊢
      omega
    · rw [congrArg List.length hs.parts]
      simp only [List.length_append]
      omega
    · rw [hs.slice, List.append_assoc]

/-- A component without a mount call, in a sentence. -/
def unmounted : Text := "See: function GeneratedLesson()\x7breturn <p/>\x7d Done.".toList

theorem sanitize_unmounted :
    (sanitize .standard .notInstalled unmounted).verdict = .accepted strayBraceMended ∧
      (sanitize .standard .notInstalled unmounted).stage = .final ∧
      (sanitize .standard .notInstalled unmounted).repairs = [] := by
  decide +kernel

theorem verbatim_of_accepted_unmounted :
    ∃ opening stop gap,
      Settings.standard.entryOpening.search? (Text.trim unmounted) = some opening ∧
      (Text.trim unmounted).blockEnd? (opening.stop - 1) = some stop ∧
      opening.stop ≤ stop ∧ stop ≤ (Text.trim unmounted).length ∧
      gap ≠ [] ∧ (∀ x ∈ gap, isBlank x = true) ∧
      strayBraceMended = (Text.trim unmounted).slice opening.start stop ++
        (gap ++ Settings.standard.canonicalMount) :=
  (verbatim_of_accepted sanitize_unmounted.1).2 sanitize_unmounted.2.1 sanitize_unmounted.2.2

end Sanitize

end SnippetGate
