import SnippetGate.Proofs.Denylist.Keeps
import SnippetGate.Proofs.Repair.Fences
import SnippetGate.Proofs.Repair.Gate
import SnippetGate.Repair.Catalogue

/-!
# A second round of repairs

The repairs behind the last one that counted have all seen the text as it comes out, and left it.
The others saw it as it was before, so a second round finds just the work that is new to them. With
one of them still at work a text is not settled: some repairs mend a defect only in part.
-/

namespace SnippetGate.Repair

variable {r : Repair} {rs rs' pre post : List Repair} {t u v : Text} {names : List Text}

theorem runs_append : Runs (rs ++ rs') t names v ↔
    ∃ names₁ u names₂, Runs rs t names₁ u ∧ Runs rs' u names₂ v ∧ names = names₁ ++ names₂ := by
  constructor
  · intro h
    induction rs generalizing t names with
    | nil => exact ⟨[], t, names, .done t, h, rfl⟩
    | cons r rs ih =>
      cases h with
      | mends hm h =>
        obtain ⟨names₁, u, names₂, h₁, h₂, rfl⟩ := ih h
        exact ⟨r.name :: names₁, u, names₂, .mends hm h₁, h₂, rfl⟩
      | leaves hl h =>
        obtain ⟨names₁, u, names₂, h₁, h₂, rfl⟩ := ih h
        exact ⟨names₁, u, names₂, .leaves hl h₁, h₂, rfl⟩
  · rintro ⟨names₁, u, names₂, h₁, h₂, rfl⟩
    induction h₁ with
    | done t => exact h₂
    | mends hm _ ih => exact .mends hm (ih h₂)
    | leaves hl _ ih => exact .leaves hl (ih h₂)

/-- A run without an effect, in which all repairs see the same text. -/
theorem runs_nil_iff : Runs rs t [] t ↔ ∀ r ∈ rs, r.Leaves t := by
  induction rs with
  | nil => exact iff_of_true (.done t) (List.forall_mem_nil _)
  | cons r rs ih =>
    rw [List.forall_mem_cons, ← ih]
    constructor
    · rintro (_ | _ | ⟨hl, h⟩)
      exact ⟨hl, h⟩
    · exact fun ⟨hl, h⟩ => .leaves hl h

theorem Runs.names_subset (h : Runs rs t names u) : names ⊆ rs.map Repair.name := by
  induction h with
  | done t => exact List.Subset.refl _
  | mends _ _ ih => exact List.cons_subset_cons _ ih
  | leaves _ _ ih => exact List.subset_cons_of_subset _ ih

/-- A text is settled if a round of repairs does nothing to it. -/
def IsSettled (rs : List Repair) (t : Text) : Prop :=
  (runAll rs t).text = t ∧ (runAll rs t).applied = []

theorem isSettled_iff : IsSettled rs t ↔ ∀ r ∈ rs, r.Leaves t := by
  have hruns := runs_runAll rs t
  rw [← runs_nil_iff]
  constructor
  · rintro ⟨htext, happlied⟩
    rwa [htext, happlied] at hruns
  · intro h
    obtain ⟨happlied, htext⟩ := hruns.unique h
    exact ⟨htext, happlied⟩

/-- If the first repairs of a run are all that counted, the others have left its text. -/
theorem leaves_of_applied_eq (h : (runAll pre t).applied = (runAll (pre ++ post) t).applied) :
    ∀ r ∈ post, r.Leaves (runAll (pre ++ post) t).text := by
  obtain ⟨names₁, u, names₂, hpre, hpost, hnames⟩ := runs_append.mp (runs_runAll (pre ++ post) t)
  obtain ⟨happlied, -⟩ := hpre.unique (runs_runAll pre t)
  obtain rfl : names₂ = [] := by
    rw [← h, happlied] at hnames
    simpa using hnames
  rw [← runs_nil_iff, hpost.eq_of_nil]
  rwa [hpost.eq_of_nil] at hpost

/-! ### Newlines and fences once and for all -/

theorem not_mem_universalNewlines (t : Text) : '\r' ∉ Text.universalNewlines t := by
  induction t using Text.universalNewlines.induct with
  | case1 => exact List.not_mem_nil
  | case2 r ih => simpa [Text.universalNewlines] using ih
  | case3 x r hx ih =>
    rw [Text.universalNewlines_cons hx, List.mem_cons, not_or]
    refine ⟨?_, ih⟩
    split <;> simp_all [eq_comm]

theorem leaves_normalizeNewlines (h : '\r' ∉ t) : normalizeNewlines.Leaves t :=
  .detectsNothing (congrArg Except.ok (if_neg (by simpa using h)))

theorem not_mem_of_mends (h : normalizeNewlines.Mends t u) : '\r' ∉ u := by
  obtain rfl : Text.universalNewlines t = u := Except.ok.inj h.acts
  exact not_mem_universalNewlines t

theorem leaves_stripFences (h : stripFences.Mends t u) : stripFences.Leaves u := by
  obtain rfl : fenceLine.replaceAll (fun _ => []) t = u := Except.ok.inj h.acts
  refine .detectsNothing (congrArg Except.ok ?_)
  rw [Option.map_eq_none_iff]
  exact Pattern.search?_eq_none_iff.mpr (occursIn_replaceAll_fenceLine t)

theorem exists_signature_of_mem_ofTier {tier : Tier} (h : r ∈ ofTier tier) :
    ∃ s ∈ Signature.catalogue, r.name = s.name := by
  obtain ⟨s, hs, hr⟩ := List.mem_filterMap.mp h
  obtain ⟨action, -, rfl⟩ := Option.map_eq_some_iff.mp hr
  exact ⟨s, (List.mem_filter.mp hs).1, rfl⟩

/-- The names of the first two repairs. -/
def layoutNames : List Text := [normalizeNewlines.name, stripFences.name]

/-- No other repair goes by the name of one of the first two. -/
theorem catalogue_eq_cons (cfg : Settings) :
    ∃ rest, catalogue cfg = normalizeNewlines :: stripFences :: rest ∧
      ∀ r ∈ rest, r.name ∉ layoutNames := by
  refine ⟨_, by simp only [catalogue, List.cons_append]; rfl, ?_⟩
  have hsure {name : String} (h : name ≠ "normalize_newlines" ∧ name ≠ "strip_markdown_fences") :
      name.toList ∉ layoutNames := by
    simp only [layoutNames, List.mem_cons, List.not_mem_nil, or_false, not_or]
    exact ⟨fun he => h.1 (String.toList_injective he), fun he => h.2 (String.toList_injective he)⟩
  have hsignature {tier : Tier} : ∀ r ∈ ofTier tier, r.name ∉ layoutNames := by
    intro r hr
    obtain ⟨s, hs, hname⟩ := exists_signature_of_mem_ofTier hr
    have hall : ∀ s ∈ Signature.catalogue, s.name ∉ layoutNames := by decide +kernel
    exact hname ▸ hall s hs
  have hnil : ∀ r ∈ ([] : List Repair), r.name ∉ layoutNames := List.forall_mem_nil _
  simp only [List.nil_append, List.append_assoc, List.forall_mem_append, List.forall_mem_cons]
  exact ⟨hsure (by decide), hsignature, ⟨hsure (by decide), hnil⟩, hsignature,
    ⟨hsure (by decide), hsure (by decide), hsure (by decide), hsure (by decide),
      hsure (by decide), hnil⟩, hsignature, hsure (by decide), hsure (by decide), hnil⟩

/-- If the first round did no more than to normalize the newlines and to strip fences, a second does
nothing, unless carriage returns were left in spite of the fences. -/
theorem isSettled_of_applied_subset (cfg : Settings) (h : (repair cfg t).applied ⊆ layoutNames)
    (hreturn : stripFences.name ∈ (repair cfg t).applied → '\r' ∉ (repair cfg t).text) :
    IsSettled (catalogue cfg) (repair cfg t).text := by
  obtain ⟨rest, hcatalogue, hother⟩ := catalogue_eq_cons cfg
  have hruns := runs_runAll (catalogue cfg) t
  have hleaves {names : List Text} {t u : Text} (hr : Runs rest t names u)
      (hn : names ⊆ layoutNames) : u = t ∧ ∀ r ∈ rest, r.Leaves u := by
    obtain rfl : names = [] := List.eq_nil_iff_forall_not_mem.mpr fun n hmem => by
      obtain ⟨r, hr, rfl⟩ := List.mem_map.mp (hr.names_subset hmem)
      exact hother r hr (hn hmem)
    obtain rfl := hr.eq_of_nil
    exact ⟨rfl, runs_nil_iff.mp hr⟩
  rw [isSettled_iff, hcatalogue, List.forall_mem_cons, List.forall_mem_cons]
  rw [repair] at h hreturn ⊢
  generalize (runAll (catalogue cfg) t).applied = names at h hreturn hruns
  generalize (runAll (catalogue cfg) t).text = u at hreturn hruns ⊢
  rw [hcatalogue] at hruns
  -- whether the fences were stripped, and before that whether the newlines were normalized
  cases hruns with
  | mends hm hr =>
    have hnone := not_mem_of_mends hm
    cases hr with
    | mends hm' hr =>
      obtain ⟨rfl, hrest⟩ := hleaves hr fun n hn => h (by simp [hn])
      exact ⟨leaves_normalizeNewlines (hreturn (by simp)), leaves_stripFences hm', hrest⟩
    | leaves hl' hr =>
      obtain ⟨rfl, hrest⟩ := hleaves hr fun n hn => h (by simp [hn])
      exact ⟨leaves_normalizeNewlines hnone, hl', hrest⟩
  | leaves hl hr =>
    cases hr with
    | mends hm' hr =>
      obtain ⟨rfl, hrest⟩ := hleaves hr fun n hn => h (by simp [hn])
      exact ⟨leaves_normalizeNewlines (hreturn (by simp)), leaves_stripFences hm', hrest⟩
    | leaves hl' hr =>
      obtain ⟨rfl, hrest⟩ := hleaves hr h
      exact ⟨hl, hl', hrest⟩

/-! ### Two rounds -/

/-- After a round that ends with the work of the repairs `pre`, a second round does nothing if and
only if none of these finds anything to mend in the text that came out. It does nothing if the
newlines and the fences were all that was to mend. -/
theorem isSettled_repair_iff (cfg : Settings) (t : Text) {pre post : List Repair}
    (hsplit : catalogue cfg = pre ++ post)
    (hlast : (runAll pre t).applied = (repair cfg t).applied) :
    (IsSettled (catalogue cfg) (repair cfg t).text ↔ ∀ r ∈ pre, r.Leaves (repair cfg t).text) ∧
      ((repair cfg t).applied ⊆ layoutNames →
        (stripFences.name ∈ (repair cfg t).applied → '\r' ∉ (repair cfg t).text) →
        IsSettled (catalogue cfg) (repair cfg t).text) := by
  refine ⟨?_, isSettled_of_applied_subset cfg⟩
  rw [repair, hsplit] at hlast
  have hpost := leaves_of_applied_eq hlast
  rw [isSettled_iff, repair, hsplit, List.forall_mem_append]
  exact and_iff_left hpost

theorem isSettled_repair_iff_doubledEvent :
    let t := "<b onOnOnClick=\x7bf\x7d/>".toList
    let u := "<b onOnClick=\x7bf\x7d/>".toList
    let names := ["fix_duplicate_event_prefix".toList]
    (repair .standard t).text = u ∧ (repair .standard t).applied = names ∧
      (repair .standard u).text = "<b onClick=\x7bf\x7d/>".toList ∧
      (repair .standard u).applied = names ∧
      ¬ ∀ r ∈ (catalogue .standard).take 8, r.Leaves u := by
  intro t u names
  have hfirst : (repair .standard t).text = u ∧ (repair .standard t).applied = names ∧
      (runAll ((catalogue .standard).take 8) t).applied = names := by decide +kernel
  have hsecond : (repair .standard u).text = "<b onClick=\x7bf\x7d/>".toList ∧
      (repair .standard u).applied = names := by decide +kernel
  refine ⟨hfirst.1, hfirst.2.1, hsecond.1, hsecond.2, fun h => ?_⟩
  have hiff := (isSettled_repair_iff .standard t (List.take_append_drop 8 _).symm
    (hfirst.2.2.trans hfirst.2.1.symm)).1
  rw [hfirst.1] at hiff
  have hnone : (repair .standard u).applied = [] := (hiff.mpr h).2
  exact absurd (hsecond.2.symm.trans hnone) (List.cons_ne_nil _ _)

end SnippetGate.Repair
