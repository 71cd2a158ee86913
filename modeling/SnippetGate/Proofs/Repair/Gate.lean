import SnippetGate.Proofs.Balance.Blanks
import SnippetGate.Proofs.Repair.Run

/-!
# The gate of the repair engine

Whatever the repairs do, each of them either mends the text it is given or leaves it. The progress
of a run says which of them mended it, and nothing else was done to the text. Since a repair mends
only what does not cost more afterwards, a balanced text stays balanced.
-/

namespace SnippetGate.Repair

variable {r : Repair} {rs rs' : List Repair} {p : Progress} {t u v : Text} {names : List Text}

/-- The repair detects a defect in `t` and makes another text of it, `u`, whose balance does not
cost more. -/
structure Mends (r : Repair) (t u : Text) : Prop where
  detects : ∃ fragment, r.detect t = .ok (some fragment)
  acts : r.action t = .ok u
  changes : u ≠ t
  cheap : costOf u ≤ costOf t

/-- Why a repair has no effect on a text. -/
inductive Leaves (r : Repair) (t : Text) : Prop where
  | detectFails (e : Text) (h : r.detect t = .error e)
  | detectsNothing (h : r.detect t = .ok none)
  | actionFails (fragment e : Text) (h : r.detect t = .ok (some fragment))
      (ha : r.action t = .error e)
  | changesNothing (fragment : Text) (h : r.detect t = .ok (some fragment))
      (ha : r.action t = .ok t)
  | costsMore (fragment u : Text) (h : r.detect t = .ok (some fragment)) (ha : r.action t = .ok u)
      (hcost : costOf t < costOf u)

/-- From a text, the repairs lead to another one; of all of them just those with the given names
mend what they are given, and the others leave it. -/
inductive Runs : List Repair → Text → List Text → Text → Prop where
  | done (t : Text) : Runs [] t [] t
  | mends {r : Repair} {rs : List Repair} {t u v : Text} {names : List Text} :
      r.Mends t u → Runs rs u names v → Runs (r :: rs) t (r.name :: names) v
  | leaves {r : Repair} {rs : List Repair} {t v : Text} {names : List Text} :
      r.Leaves t → Runs rs t names v → Runs (r :: rs) t names v

/-! ### One repair -/

theorem Mends.unique (h : r.Mends t u) (h' : r.Mends t v) : u = v :=
  Except.ok.inj (h.acts.symm.trans h'.acts)

/-- A repair leaves a text or mends it. -/
theorem leaves_iff : r.Leaves t ↔ ∀ u, ¬ r.Mends t u := by
  constructor
  · rintro h u ⟨⟨fragment, hd⟩, ha, hne, hcost⟩
    cases h with
    | detectFails e h => rw [h] at hd; cases hd
    | detectsNothing h => rw [h] at hd; cases hd
    | actionFails f e h ha' => rw [ha'] at ha; cases ha
    | changesNothing f h ha' => exact hne (Except.ok.inj (ha.symm.trans ha'))
    | costsMore f v h ha' hcost' =>
      obtain rfl : u = v := Except.ok.inj (ha.symm.trans ha')
      omega
  · intro h
    cases hd : r.detect t with
    | error e => exact .detectFails e hd
    | ok found =>
      cases found with
      | none => exact .detectsNothing hd
      | some fragment =>
        cases ha : r.action t with
        | error e => exact .actionFails fragment e hd ha
        | ok u =>
          by_cases hne : u = t
          · exact .changesNothing fragment hd (hne ▸ ha)
          · by_cases hcost : costOf t < costOf u
            · exact .costsMore fragment u hd ha hcost
            · exact absurd ⟨⟨fragment, hd⟩, ha, hne, Nat.not_lt.mp hcost⟩ (h u)

theorem leaves_or_exists_mends (r : Repair) (t : Text) : r.Leaves t ∨ ∃ u, r.Mends t u := by
  rw [leaves_iff, ← not_exists]
  exact (em _).symm

/-- The engine knows what its text costs. -/
def Progress.IsPriced (p : Progress) : Prop := p.cost = costOf p.text

theorem attempt_of_mends (hp : p.IsPriced) (h : r.Mends p.text u) :
    (attempt p r).IsPriced ∧ (attempt p r).text = u ∧
      (attempt p r).applied = p.applied ++ [r.name] := by
  obtain ⟨fragment, hd⟩ := h.detects
  have hpropose : r.propose p.text = .ok (some u) := by
    rw [propose, hd]
    dsimp only
    rw [h.acts]
    rfl
  rw [attempt_of_propose hpropose h.changes (hp ▸ h.cheap)]
  exact ⟨rfl, rfl, rfl⟩

theorem attempt_of_leaves (hp : p.IsPriced) (h : r.Leaves p.text) :
    (attempt p r).IsPriced ∧ (attempt p r).text = p.text ∧
      (attempt p r).applied = p.applied := by
  have same {q : Progress} (he : attempt p r = q) (ht : q.text = p.text) (hc : q.cost = p.cost)
      (ha : q.applied = p.applied) : (attempt p r).IsPriced ∧ (attempt p r).text = p.text ∧
        (attempt p r).applied = p.applied := by
    rw [he, Progress.IsPriced, ht, hc, ha]
    exact ⟨hp, rfl, rfl⟩
  cases h with
  | detectFails e h =>
    refine same (q := { p with journal := p.journal ++ [r.failedNote e] }) ?_ rfl rfl rfl
    simp only [attempt, propose, h]
  | detectsNothing h =>
    refine same (q := p) ?_ rfl rfl rfl
    simp only [attempt, propose, h]
  | actionFails f e h ha =>
    refine same (q := { p with journal := p.journal ++ [r.failedNote e] }) ?_ rfl rfl rfl
    simp only [attempt, propose, h, ha, Except.map]
  | changesNothing f h ha =>
    refine same (q := p) ?_ rfl rfl rfl
    simp only [attempt, propose, h, ha, Except.map, if_true]
  | costsMore f u h ha hcost =>
    have hne : u ≠ p.text := by
      rintro rfl
      omega
    have hdear : costOf u > p.cost := hp ▸ hcost
    refine same (q := { p with journal := p.journal ++ [r.revertedNote p.cost (costOf u)] }) ?_
      rfl rfl rfl
    simp only [attempt, propose, h, ha, Except.map, if_neg hne, if_pos hdear]

/-! ### A run -/

theorem isPriced_begin (t : Text) : (begin t).IsPriced := rfl

/-- Whatever the repairs do, a run of the engine is a run of them. -/
theorem exists_runs_foldl (rs : List Repair) (hp : p.IsPriced) :
    ∃ names, (rs.foldl attempt p).applied = p.applied ++ names ∧
      Runs rs p.text names (rs.foldl attempt p).text := by
  induction rs generalizing p with
  | nil => exact ⟨[], (List.append_nil _).symm, .done _⟩
  | cons r rs ih =>
    rw [List.foldl_cons]
    rcases leaves_or_exists_mends r p.text with hl | ⟨u, hm⟩
    · obtain ⟨hprice, htext, happlied⟩ := attempt_of_leaves hp hl
      obtain ⟨names, hnames, hruns⟩ := ih hprice
      rw [htext] at hruns
      exact ⟨names, by rw [hnames, happlied], .leaves hl hruns⟩
    · obtain ⟨hprice, htext, happlied⟩ := attempt_of_mends hp hm
      obtain ⟨names, hnames, hruns⟩ := ih hprice
      rw [htext] at hruns
      exact ⟨r.name :: names, by rw [hnames, happlied, List.append_assoc]; rfl, .mends hm hruns⟩

theorem runs_runAll (rs : List Repair) (t : Text) :
    Runs rs t (runAll rs t).applied (runAll rs t).text := by
  obtain ⟨names, hnames, hruns⟩ := exists_runs_foldl rs (isPriced_begin t)
  rw [runAll, hnames]
  exact hruns

namespace Runs

/-- The text and the repairs leave no choice to a run. -/
theorem unique {names' : List Text} (h : Runs rs t names u) (h' : Runs rs t names' v) :
    names = names' ∧ u = v := by
  induction h generalizing names' v with
  | done t => cases h'; exact ⟨rfl, rfl⟩
  | mends hm _ ih =>
    cases h' with
    | mends hm' hruns =>
      obtain rfl := hm.unique hm'
      obtain ⟨rfl, rfl⟩ := ih hruns
      exact ⟨rfl, rfl⟩
    | leaves hl _ => exact absurd hm (leaves_iff.mp hl _)
  | leaves hl _ ih =>
    cases h' with
    | mends hm _ => exact absurd hm (leaves_iff.mp hl _)
    | leaves _ hruns => exact ih hruns

theorem costOf_le (h : Runs rs t names u) : costOf u ≤ costOf t := by
  induction h with
  | done t => exact Nat.le_refl _
  | mends hm _ ih => exact ih.trans hm.cheap
  | leaves _ _ ih => exact ih

theorem eq_of_nil (h : Runs rs t [] u) : u = t := by
  generalize hn : ([] : List Text) = names at h
  induction h with
  | done t => rfl
  | mends => cases hn
  | leaves _ _ ih => exact ih hn

end Runs

theorem isBalanced_iff_costOf : (Scan.ofText t).isBalanced = true ↔ costOf t = 0 := by
  refine ⟨cost_eq_zero_of_isBalanced, fun h => ?_⟩
  rw [costOf, Scan.cost, Nat.add_eq_zero_iff, List.length_eq_zero_iff] at h
  rw [Scan.isBalanced, h.1]
  rfl

/-- The progress of a run names the repairs that mended the text they were given, in their order.
All others left the text. The balance never costs more afterwards, so that a balanced text stays
balanced, and without a name in it the progress holds the text from the beginning. -/
theorem runs_iff_runAll (rs : List Repair) (t : Text) :
    (∀ names u, Runs rs t names u ↔ names = (runAll rs t).applied ∧ u = (runAll rs t).text) ∧
      costOf (runAll rs t).text ≤ costOf t ∧
      ((Scan.ofText t).isBalanced = true → (Scan.ofText (runAll rs t).text).isBalanced = true) ∧
      ((runAll rs t).applied = [] → (runAll rs t).text = t) := by
  have hruns := runs_runAll rs t
  refine ⟨fun names u => ⟨fun h => h.unique hruns, ?_⟩, hruns.costOf_le, fun h => ?_, fun h => ?_⟩
  · rintro ⟨rfl, rfl⟩
    exact hruns
  · rw [isBalanced_iff_costOf] at h ⊢
    exact Nat.le_zero.mp (h ▸ hruns.costOf_le)
  · rw [h] at hruns
    exact hruns.eq_of_nil

end SnippetGate.Repair
