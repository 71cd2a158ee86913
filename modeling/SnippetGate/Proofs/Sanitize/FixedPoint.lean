import SnippetGate.Proofs.Tsx.Filling
import SnippetGate.Sanitize
import SnippetGate.Tsx.Grammar

/-!
# Accepted code stays accepted

Whatever way a text takes through the gate, the code that comes out has no blanks at its ends and
fulfils the contract as it stands. So the gate lets it pass unchanged the next time.
-/

namespace SnippetGate

variable {cfg : Settings} {supply supply' : Tsx.Filling.Supply} {raw t code : Text}

/-- A text that fulfils the contract is not blank: it returns markup. -/
theorem Contract.not_allBlank_of_defects (h : Contract.defects cfg t = []) :
    Text.allBlank t = false := by
  simp only [defects, List.append_eq_nil_iff, checkReturn] at h
  obtain ⟨⟨⟨⟨⟨-, -⟩, hreturn⟩, -⟩, -⟩, -⟩ := h
  split at hreturn
  · next hmarkup =>
    simp only [Bool.and_eq_true, List.contains_iff_mem] at hmarkup
    rw [Text.allBlank, List.all_eq_false]
    exact ⟨'<', hmarkup.2, by decide⟩
  · cases hreturn

namespace Sanitize

/-- What is prepared has no blanks at its ends. -/
theorem isTrimmed_prepare : Text.IsTrimmed (prepare cfg supply t).code := by
  simp only [prepare]
  split
  · exact Tsx.Filling.isTrimmed_fill _ _ (Text.isTrimmed_trim _)
  · exact Text.isTrimmed_trim _

/-- On every way to acceptance the code is trimmed, and the contract is checked on that code. -/
theorem accepted_spec (h : (sanitize cfg supply raw).verdict = .accepted code) :
    Text.IsTrimmed code ∧ Contract.defects cfg code = [] ∧
      (sanitize cfg supply raw).warnings = Contract.warnings code := by
  unfold sanitize at h ⊢
  split at h
  · cases h
  next hblank =>
  split at h
  · cases h
  next hlong =>
  rw [if_neg hblank, if_neg hlong]
  split at h
  · simp only [contractPath] at h ⊢
    split at h
    · next hdefects =>
      rw [if_pos hdefects]
      obtain rfl := Verdict.accepted.inj h
      exact ⟨Text.isTrimmed_trim raw, List.isEmpty_iff.mp hdefects, rfl⟩
    · next hdefects =>
      rw [if_neg hdefects]
      simp only [repairPath] at h ⊢
      split at h
      · next hafter =>
        rw [if_pos hafter]
        obtain rfl := Verdict.accepted.inj h
        exact ⟨isTrimmed_prepare, List.isEmpty_iff.mp hafter, rfl⟩
      · cases h
  · cases h

/-- Accepted code that is not too long and holds no denied code is accepted as it is. -/
theorem sanitize_accepted (h : (sanitize cfg supply raw).verdict = .accepted code)
    (hlength : (code.length : Int) ≤ cfg.maxInputChars)
    (hharmless : code.violations cfg.trustedImport = []) :
    sanitize cfg supply' code =
      { verdict := .accepted code
        stage := .precheck
        warnings := (sanitize cfg supply raw).warnings
        repairs := []
        journal := [acceptedNote] } := by
  obtain ⟨htrim, hdefects, hwarnings⟩ := accepted_spec h
  have hblank := Contract.not_allBlank_of_defects hdefects
  rw [hwarnings, sanitize, if_neg (by simp [hblank]), if_neg (Int.not_lt.mpr hlength), hharmless]
  simp only [contractPath, htrim.trim_eq, hdefects, List.isEmpty_nil, if_true]

/-- A component with its mount call before a brace too many. -/
def strayBrace : Text :=
  "function GeneratedLesson()\x7breturn <p/>\x7drender(<GeneratedLesson />);\x7d".toList

/-- The same component without it. -/
def strayBraceMended : Text :=
  "function GeneratedLesson()\x7breturn <p/>\x7d\n\nrender(<GeneratedLesson />);".toList

theorem sanitize_strayBrace :
    (sanitize .standard .notInstalled strayBrace).verdict = .accepted strayBraceMended ∧
      (sanitize .standard .notInstalled strayBrace).repairs = ["strip_tail_after_mount".toList] := by
  decide +kernel

theorem sanitize_accepted_strayBrace :
    sanitize .standard (.available Tsx.Grammar.parser) strayBraceMended =
      { verdict := .accepted strayBraceMended
        stage := .precheck
        warnings := (sanitize .standard .notInstalled strayBrace).warnings
        repairs := []
        journal := [acceptedNote] } :=
  sanitize_accepted sanitize_strayBrace.1 (by decide +kernel) (by decide +kernel)

end Sanitize

end SnippetGate
