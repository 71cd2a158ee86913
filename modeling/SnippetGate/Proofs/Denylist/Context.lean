import SnippetGate.Proofs.Denylist.Imports
import SnippetGate.Proofs.Pattern.Between
import SnippetGate.Proofs.Sanitize.LineEnds

/-!
# Denied code among other lines

Lines before and behind a text do not hide what the deny list finds in it. The categories are
reported in their order, each once, whatever stands around them.
-/

namespace SnippetGate

open Pattern

variable {trusted t : Text}

/-- The reported categories are those with a pattern that occurs in the text, in their order. -/
theorem Text.categories_violations (t trusted : Text) :
    (t.violations trusted).map Violation.category =
      DenyCategory.all.filter fun c => (c.patterns trusted).any fun p => p.occursIn t := by
  rw [Text.violations]
  induction DenyCategory.all with
  | nil => rfl
  | cons c cs ih =>
    cases hv : c.violation? trusted t with
    | none =>
      rw [List.filterMap_cons, hv, Option.map_none, ih, List.filter_cons_of_neg]
      simpa using DenyCategory.violation?_eq_none_iff.mp hv
    | some fragment =>
      rw [List.filterMap_cons, hv, Option.map_some, List.map_cons, ih, List.filter_cons_of_pos]
      by_contra hnone
      rw [DenyCategory.violation?_eq_none_iff.mpr (by simpa using hnone)] at hv
      cases hv

namespace DenyCategory

/-- Whether the trusted module is named is seen on the line of the quote. -/
theorem isSheltered_otherModule (htrusted : '\n' ∉ trusted) :
    (otherModule trusted).isDirect = true ∧ (otherModule trusted).isSheltered = true := by
  have hline : (Pattern.seq (.text trusted) moduleQuote).staysOnLine = true := by
    rw [staysOnLine, staysOnLine_text htrusted]
    rfl
  have hquote : moduleQuote.isDirect = true ∧ moduleQuote.isSheltered = true := ⟨rfl, rfl⟩
  simp [otherModule, isDirect, isSheltered, hline, hquote]

/-- The patterns of the deny list are sheltered, if the trusted name stands on one line. -/
theorem isSheltered_patterns (htrusted : '\n' ∉ trusted) (c : DenyCategory) :
    ∀ p ∈ c.patterns trusted, p.isDirect = true ∧ p.isSheltered = true := by
  have fixed {ps : List Pattern} (h : (ps.all fun p => p.isDirect && p.isSheltered) = true) :
      ∀ p ∈ ps, p.isDirect = true ∧ p.isSheltered = true := by
    simpa only [List.all_eq_true, Bool.and_eq_true] using h
  cases c with
  | externalImport =>
    have hother := isSheltered_otherModule htrusted
    have hgap : gap.isDirect = true ∧ gap.isSheltered = true := ⟨rfl, rfl⟩
    have hword (w : String) : (word w).isDirect = true ∧ (word w).isSheltered = true :=
      ⟨isDirect_text _, isSheltered_text _⟩
    have hfresh : freshWord.isDirect = true ∧ freshWord.isSheltered = true := ⟨rfl, rfl⟩
    have hcalls := @fixed [.seq freshWord (call "import"), .seq freshWord (call "require")] rfl
    intro p hp
    simp only [patterns, List.mem_cons, List.not_mem_nil, or_false] at hp
    rcases hp with rfl | rfl | hcall
    · simp [hother, hgap, hword, few, isDirect, isSheltered]
    · simp [hother, hgap, hword, hfresh]
    · exact hcalls p (by simpa using hcall)
  | _ => exact fixed rfl

end DenyCategory

/-- What the deny list finds in some lines, it finds there whatever lines stand before and behind
them, and it reports the categories in their order and each once. The trusted name is a word. -/
theorem Text.reports_between (htrusted : ∀ x ∈ trusted, isWord x = true) (t before after : Text) :
    (∀ c, t.Reports trusted c →
      Text.Reports (before ++ '\n' :: (t ++ '\n' :: after)) trusted c) ∧
    ∀ u : Text, ((u.violations trusted).map Violation.category).Sublist DenyCategory.all ∧
      ((u.violations trusted).map Violation.category).Nodup := by
  have hline : '\n' ∉ trusted := fun hn => by cases htrusted '\n' hn
  constructor
  · intro c hc
    rw [reports_iff] at hc ⊢
    obtain ⟨p, hp, hfound⟩ := hc
    obtain ⟨hdirect, hsheltered⟩ := c.isSheltered_patterns hline p hp
    exact ⟨p, hp, occursIn_between hdirect hsheltered before after hfound⟩
  · intro u
    rw [categories_violations]
    exact ⟨List.filter_sublist, (by decide : DenyCategory.all.Nodup).filter _⟩

/-- An import whose module is cut off behind its opening quote. -/
def openImport : Text := "import a from \x27".toList

theorem reports_between_openImport :
    Text.Reports ("let a;".toList ++ '\n' :: (openImport ++ '\n' :: "react\x27".toList)) trustedModule
      .externalImport :=
  (Text.reports_between (by decide) openImport _ _).1 .externalImport
    (by rw [Text.Reports]; decide +kernel)

end SnippetGate
