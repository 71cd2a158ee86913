import SnippetGate.Proofs.Repair.Closure
import SnippetGate.Proofs.Repair.Endings
import SnippetGate.Repair.Catalogue

/-!
# What a run of repairs keeps

A repair counts only if it changes the text, and then its name is noted. So a property that no
noted repair brings about is not brought about by the run.
-/

namespace SnippetGate.Repair

variable {D : Text → Prop} {r : Repair} {rs : List Repair} {p : Progress} {R : List Text}

/-- A repair does not bring a property about. -/
def Avoids (D : Text → Prop) (r : Repair) : Prop :=
  ∀ t u, r.propose t = .ok (some u) → D u → D t

theorem avoids_sure {name : String} {tier : Tier} {detect : Text → Option Text}
    {action : Text → Text} (h : ∀ t, D (action t) → D t) :
    (sure name tier detect action).Avoids D := by
  intro t u hu hd
  simp only [propose, sure] at hu
  split at hu
  · cases hu
  · cases hu
  · obtain rfl : action t = u := by simpa [Except.map] using hu
    exact h t hd

theorem avoids_ofSignature? {s : Signature} {action : Text → Text} (ha : s.action? = some action)
    (h : ∀ t, D (action t) → D t) : ∀ r ∈ ofSignature? s, r.Avoids D := by
  intro r hr
  rw [ofSignature?, ha] at hr
  obtain rfl := Option.some.inj hr
  intro t u hu hd
  simp only [propose] at hu
  split at hu
  · cases hu
  · cases hu
  · obtain rfl : action t = u := by simpa [Except.map] using hu
    exact h t hd

/-- One try leaves the text as it is, or makes the proposed change and notes the name. -/
theorem attempt_cases (p : Progress) (r : Repair) :
    (attempt p r).text = p.text ∧ (attempt p r).applied = p.applied ∨
      r.propose p.text = .ok (some (attempt p r).text) ∧
        (attempt p r).applied = p.applied ++ [r.name] := by
  unfold attempt
  split
  · exact .inl ⟨rfl, rfl⟩
  · exact .inl ⟨rfl, rfl⟩
  · next candidate hc =>
    split
    · exact .inl ⟨rfl, rfl⟩
    · dsimp only
      split
      · exact .inl ⟨rfl, rfl⟩
      · exact .inr ⟨hc, rfl⟩

/-- A change that does not raise the cost counts. -/
theorem attempt_of_propose {u : Text} (h : r.propose p.text = .ok (some u)) (hne : u ≠ p.text)
    (hcost : costOf u ≤ p.cost) :
    attempt p r = { p with text := u, cost := costOf u, applied := p.applied ++ [r.name] } := by
  rw [attempt, h]
  dsimp only
  rw [if_neg hne, if_neg (Nat.not_lt.mpr hcost)]

theorem applied_subset_foldl (rs : List Repair) (p : Progress) :
    p.applied ⊆ (rs.foldl attempt p).applied := by
  induction rs generalizing p with
  | nil => exact List.Subset.refl _
  | cons r rs ih =>
    refine List.Subset.trans ?_ (ih (attempt p r))
    rcases attempt_cases p r with ⟨-, h⟩ | ⟨-, h⟩
    · rw [h]
      exact List.Subset.refl _
    · rw [h]
      exact List.subset_append_left ..

/-- The progress of a run with some repairs noted before it. -/
def Progress.behind (names : List Text) (p : Progress) : Progress :=
  { p with applied := names ++ p.applied }

theorem attempt_behind (names : List Text) (p : Progress) (r : Repair) :
    attempt (p.behind names) r = (attempt p r).behind names := by
  cases hr : r.propose p.text with
  | error e => simp [attempt, Progress.behind, hr]
  | ok candidate? =>
    cases candidate? with
    | none => simp [attempt, Progress.behind, hr]
    | some candidate =>
      by_cases hsame : candidate = p.text
      · simp [attempt, Progress.behind, hr, hsame]
      · by_cases hcost : costOf candidate > p.cost
        · simp [attempt, Progress.behind, hr, hsame, hcost]
        · simp [attempt, Progress.behind, hr, hsame, hcost]

/-- What was noted before a run has no effect on it. -/
theorem foldl_attempt_behind (names : List Text) (rs : List Repair) (p : Progress) :
    rs.foldl attempt (p.behind names) = (rs.foldl attempt p).behind names := by
  induction rs generalizing p with
  | nil => rfl
  | cons r rs ih => rw [List.foldl_cons, attempt_behind, ih, List.foldl_cons]

/-- A run does not bring about what none of its noted repairs does. -/
theorem avoids_foldl (h : ∀ r ∈ rs, r.name ∈ R → r.Avoids D)
    (hR : (rs.foldl attempt p).applied ⊆ R) (hd : D (rs.foldl attempt p).text) : D p.text := by
  induction rs generalizing p with
  | nil => exact hd
  | cons r rs ih =>
    obtain ⟨hr, hrs⟩ := List.forall_mem_cons.mp h
    have hnext : D (attempt p r).text := ih hrs hR hd
    rcases attempt_cases p r with ⟨htext, -⟩ | ⟨hpropose, happlied⟩
    · rwa [← htext]
    · have hname : r.name ∈ (attempt p r).applied := by simp [happlied]
      exact hr (hR (applied_subset_foldl rs _ hname)) _ _ hpropose hnext

end SnippetGate.Repair
