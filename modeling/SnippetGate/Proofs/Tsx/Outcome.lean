import SnippetGate.Proofs.Bytes.Splice

/-!
# Filling is all or nothing

A text is filled in one run: it is read, the edits that its tree asks for are spliced, and what
comes out is read again. If every step of the run succeeds, the filled text is its result and the
repairs are named. Where a step fails, whatever it is, the text stays as it was and no repair is
named.
-/

namespace SnippetGate

theorem Edit.chosen_ne_nil {es : List Edit} (h : es ≠ []) : Edit.chosen es ≠ [] := by
  have hne : Edit.sorted es ≠ [] := fun hnil =>
    h (List.nil_perm.mp (hnil ▸ (isStablySorted_sorted es).perm))
  obtain ⟨e, rest, he⟩ := List.exists_cons_of_ne_nil hne
  rw [chosen, he, disjointFrom, if_neg (Nat.not_lt_zero _)]
  exact List.cons_ne_nil _ _

/-- Edits that are spliced have names. -/
theorem Edit.names_splice_ne_nil {es : List Edit} (bs : Bytes) (h : es ≠ []) :
    (Edit.splice bs es).2 ≠ [] := by
  obtain ⟨e, he⟩ := List.exists_mem_of_ne_nil _ (chosen_ne_nil h)
  exact List.ne_nil_of_mem (List.mem_eraseDups.mpr (List.mem_map_of_mem he))

namespace Tsx.Filling

variable {parser : Parser} {supply : Supply} {t u : Text} {root : Node} {mended : Bytes}
  {names : List Text} {r : Filled}

/-- The parser reads the bytes and finds no error in them. -/
def Reads (parser : Parser) (bs : Bytes) (root : Node) : Prop := parser bs = .ok ⟨root, false⟩

/-- A run in which every step succeeds: the text `t`, which is not blank, is read, its tree asks for
edits, these are spliced, and the bytes that come out are read without an error and are those of the
text `u`. -/
structure Succeeds (parser : Parser) (t : Text) (root : Node) (mended : Bytes) (u : Text)
    (names : List Text) : Prop where
  ink : Text.allBlank t = false
  reads : Reads parser (Bytes.ofText t) root
  asks : edits t (Bytes.ofText t) root ≠ []
  splices : Edit.splice (Bytes.ofText t) (edits t (Bytes.ofText t) root) = (mended, names)
  rereads : ∃ root', Reads parser mended root'
  decodes : mended.toText? = some u

/-- There is a parser with which a run on the text `t` succeeds and gives the text `u` and the names
of the repairs. -/
def Completes (supply : Supply) (t u : Text) (names : List Text) : Prop :=
  ∃ parser root mended, supply = .available parser ∧ Succeeds parser t root mended u names

theorem Succeeds.names_ne_nil (h : Succeeds parser t root mended u names) : names ≠ [] := by
  have hnames := Edit.names_splice_ne_nil (Bytes.ofText t) h.asks
  rwa [h.splices] at hnames

/-- A run that succeeds is what filling gives. -/
theorem Succeeds.fill_eq (h : Succeeds parser t root mended u names) (grammar : Text) :
    fill grammar (.available parser) t = { text := u, applied := names } := by
  obtain ⟨root', hroot'⟩ := h.rereads
  have hmended : parser mended = .ok ⟨root', false⟩ := hroot'
  have hasks : (edits t (Bytes.ofText t) root).isEmpty = false := by
    rw [List.isEmpty_eq_false_iff]
    exact h.asks
  have hcarry : carryOut parser t (Bytes.ofText t) (edits t (Bytes.ofText t) root) =
      .ok { text := u, applied := names } := by
    rw [carryOut, hasks, h.splices]
    simp [hmended, h.decodes, bind, Except.bind, pure, Except.pure]
  have hrun : fillWith parser t = .ok { text := u, applied := names } := by
    rw [fillWith, h.reads]
    exact hcarry
  rw [fill, h.ink, hrun]
  rfl

/-- A run that gives a result has succeeded, or it leaves the text as it was. -/
theorem succeeds_of_fillWith (hink : Text.allBlank t = false) (h : fillWith parser t = .ok r) :
    r.text = t ∧ r.applied = [] ∨
      ∃ root mended, Succeeds parser t root mended r.text r.applied := by
  obtain ⟨⟨root, hasError⟩, htree, h⟩ := exists_of_bind_eq_ok h
  cases hasError with
  | true => exact .inl (Except.ok.inj h ▸ ⟨rfl, rfl⟩)
  | false =>
    change carryOut parser t (Bytes.ofText t) (edits t (Bytes.ofText t) root) = .ok r at h
    rw [carryOut] at h
    split at h
    · exact .inl (Except.ok.inj h ▸ ⟨rfl, rfl⟩)
    next hasks =>
    obtain ⟨mended, names, hsplice⟩ : ∃ mended names,
      Edit.splice (Bytes.ofText t) (edits t (Bytes.ofText t) root) = (mended, names) := ⟨_, _, rfl⟩
    rw [hsplice] at h
    obtain ⟨⟨root', hasError'⟩, htree', h⟩ := exists_of_bind_eq_ok h
    cases hasError' with
    | true => exact .inl (Except.ok.inj h ▸ ⟨rfl, rfl⟩)
    | false =>
      rw [if_neg Bool.false_ne_true] at h
      split at h
      · cases h
      · next u hu =>
        obtain rfl := Except.ok.inj h
        have hasks' : edits t (Bytes.ofText t) root ≠ [] := by simpa using hasks
        exact .inr ⟨root, mended, hink, htree, hasks', hsplice, ⟨root', htree'⟩, hu⟩

/-- Either the run succeeds, and the filled text and the names of the repairs, of which there are
some, are its result; or it does not, and then the text is unchanged and no repair is named. -/
theorem fill_allOrNothing (grammar : Text) (supply : Supply) (t : Text) :
    Completes supply t (fill grammar supply t).text (fill grammar supply t).applied ∧
        (fill grammar supply t).applied ≠ [] ∨
      (fill grammar supply t).text = t ∧ (fill grammar supply t).applied = [] ∧
        ∀ u names, ¬ Completes supply t u names := by
  by_cases hrun : ∃ u names, Completes supply t u names
  · left
    obtain ⟨u, names, parser, root, mended, rfl, hs⟩ := hrun
    rw [hs.fill_eq grammar]
    exact ⟨⟨parser, root, mended, rfl, hs⟩, hs.names_ne_nil⟩
  · simp only [not_exists] at hrun
    suffices h : (fill grammar supply t).text = t ∧ (fill grammar supply t).applied = [] from
      .inr ⟨h.1, h.2, hrun⟩
    cases supply with
    | notInstalled => exact ⟨rfl, rfl⟩
    | noGrammar reason => exact ⟨rfl, rfl⟩
    | available parser =>
      rw [fill]
      split
      · exact ⟨rfl, rfl⟩
      next hblank =>
      split
      · next r hr =>
        refine (succeeds_of_fillWith (by simpa using hblank) hr).resolve_right ?_
        rintro ⟨root, mended, hs⟩
        exact hrun _ _ ⟨parser, root, mended, rfl, hs⟩
      · exact ⟨rfl, rfl⟩

end Tsx.Filling

end SnippetGate
