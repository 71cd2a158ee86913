import SnippetGate.Proofs.Component.Again
import SnippetGate.Proofs.Pattern.Replaced

/-!
# A component alone

A text that begins with a plain declaration, and in which blanks and the mount call follow the
block, is a component in its standard form. It is its own component, and with blanks around it is
still the component of the text. No other text with a plain declaration and a block is its own
component.
-/

namespace SnippetGate.Component

open Pattern

variable {c l r t before head block gap rest : Text} {m : Match}

/-- The text is a component in its standard form and nothing else: it begins with a plain declaration
of the entry point, and blanks and the mount call follow the block. -/
def IsAlone (c : Text) : Prop :=
  ∃ opening stop gap, Settings.standard.entryOpening.search? c = some opening ∧
    opening.start = 0 ∧ IsPlainOpening opening.text ∧
    c.blockEnd? (opening.stop - 1) = some stop ∧
    c.drop stop = gap ++ Settings.standard.canonicalMount ∧ gap ≠ [] ∧ ∀ x ∈ gap, isBlank x = true

theorem IsAlone.exists_spans (h : IsAlone c) : ∃ m head block gap,
    Spans .standard c m [] head block (gap ++ Settings.standard.canonicalMount) ∧
      IsPlainHead head ∧ gap ≠ [] ∧ ∀ x ∈ gap, isBlank x = true := by
  obtain ⟨m, stop, gap, hm, hstart, ⟨head', hhead, htext⟩, hstop, hrest, hne, hgap⟩ := h
  obtain ⟨before, head, block, rest, hs⟩ := Component.exists_spans hm hstop
  obtain rfl : before = [] := List.length_eq_zero_iff.mp (hs.start.symm.trans hstart)
  obtain rfl : head = head' := List.append_cancel_right (hs.opening.symm.trans htext)
  obtain rfl : stop = ([] ++ (head ++ block)).length := Option.some.inj (hstop.symm.trans hs.ends)
  obtain rfl : rest = gap ++ Settings.standard.canonicalMount := hs.drop_eq.symm.trans hrest
  exact ⟨m, head, block, gap, hs, hhead, hne, hgap⟩

/-- A text with a plain declaration and a block is its own component just if it is a component
alone. -/
theorem text_ofText_eq_self_iff (hm : Settings.standard.entryOpening.search? c = some m)
    (hplain : IsPlainOpening m.text) (hmode : (ofText .standard c).mode = .span) :
    (ofText .standard c).text = c ↔ IsAlone c := by
  constructor
  · intro hsame
    obtain ⟨m', before, head, block, rest, hs⟩ := exists_spans_of_mode hmode
    obtain rfl : m = m' := Option.some.inj (hm.symm.trans hs.found)
    obtain ⟨head', hhead, he⟩ := hplain
    obtain rfl : head = head' := List.append_cancel_right (hs.opening.symm.trans he)
    have hself : c = head ++ (block ++ (separator .standard rest ++
        Settings.standard.canonicalMount)) := by
      rw [← hsame]
      exact congrArg Component.text hs.ofText_eq
    -- the text begins with the declaration, so nothing stands before the one that is found
    obtain ⟨q, x, rfl, -⟩ := hs.bracket
    obtain ⟨m', hm', hstart, -⟩ := exists_search?_of_plain hm hs.opening hhead
      (q ++ [x] ++ (separator .standard rest ++ Settings.standard.canonicalMount))
    have hbegins : head ++ '{' :: (q ++ [x] ++ (separator .standard rest ++
        Settings.standard.canonicalMount)) = c := hself.symm
    rw [hbegins, hm] at hm'
    obtain rfl := Option.some.inj hm'
    obtain rfl : before = [] := List.length_eq_zero_iff.mp (hs.start.symm.trans hstart)
    have hrest : rest = separator .standard rest ++ Settings.standard.canonicalMount :=
      List.append_cancel_left (List.append_cancel_left (hs.parts.symm.trans hself))
    exact ⟨m, _, _, hm, hstart, ⟨head, hhead, hs.opening⟩, hs.ends, hs.drop_eq.trans hrest,
      separator_ne_nil rest, fun x => isBlank_of_mem_separator⟩
  · intro h
    obtain ⟨m', head, block, gap, hs, -, hne, hgap⟩ := h.exists_spans
    rw [hs.ofText_eq, separator_mount hgap hne]
    exact hs.parts.symm

/-! ### Blanks around a component -/

/-- What is found where blanks end is found no earlier, if it does not begin with a blank. -/
theorem length_le_of_blanks {x : Char} {v k : Text} (hl : ∀ z ∈ l, isBlank z = true)
    (hx : isBlank x = false) (h : l ++ v = before ++ x :: k) : l.length ≤ before.length := by
  rcases Text.cases_of_append_cons_eq h.symm with ⟨d, rfl, -⟩ | ⟨d, rfl, -⟩
  · exact List.length_append ▸ Nat.le_add_right ..
  · rw [hl x (by simp)] at hx
    cases hx

/-- With blanks around it a text that begins with a plain declaration has the same block. -/
theorem Spans.blanks (h : Spans .standard c m [] head block rest) (hhead : IsPlainHead head)
    (hl : ∀ z ∈ l, isBlank z = true) (r : Text) :
    ∃ m', Spans .standard (l ++ (c ++ r)) m' l head block (rest ++ r) := by
  have hexplicit : Settings.standard.entryOpening.isExplicit = true := by decide
  have hsteady : Settings.standard.entryOpening.IsSteady := by
    simp [Settings.entryOpening, few1]
  obtain ⟨w, ho, hfits⟩ := exists_fits_of_mem_ends hexplicit (finds_of_searchFrom? h.found).last
  obtain rfl : w = head ++ ['{'] := by rw [← h.opening, Match.text, ho.between]
  obtain ⟨hends, -⟩ := h.ends_behind
  have hbracket := h.bracket
  obtain ⟨q, x, rfl, -⟩ := h.bracket
  have hparts : c ++ r = head ++ ('{' :: (q ++ [x]) ++ (rest ++ r)) := by
    rw [h.parts]
    simp
  -- the declaration is found behind the blanks
  have hfits' : Settings.standard.entryOpening.Fits (l ++ []) (head ++ ['{'])
      (q ++ [x] ++ (rest ++ r) ++ []) :=
    (fits_blanks_iff hsteady hl (List.forall_mem_nil _)).mpr (fits_entryOpening_nil hfits _)
  rw [List.append_nil, List.append_nil] at hfits'
  have hopening : head ++ ['{'] ++ (q ++ [x] ++ (rest ++ r)) = c ++ r := by
    rw [hparts]
    simp
  obtain ⟨m', hm', hle⟩ := (Fits.startsAt hexplicit hfits').exists_search?
  rw [hopening] at hm'
  obtain ⟨before, p, k, ht, hstart, hbrace, htext⟩ := exists_parts_of_entryOpening hm'
  obtain rfl : l = before := by
    have hge := length_le_of_blanks hl (by decide : isBlank 'f' = false) ht
    exact List.append_inj_left ht (by omega)
  -- and a plain declaration fits in one way only
  have hsame : head ++ ['{'] = m'.text := by
    obtain ⟨w', ho', hfits''⟩ := exists_fits_of_mem_ends hexplicit (finds_of_searchFrom? hm').last
    obtain rfl : w' = m'.text := ho'.between.symm
    have he : head ++ ['{'] ++ (q ++ [x] ++ (rest ++ r)) = m'.text ++ k := by
      rw [hopening, List.append_cancel_left ht, htext]
      simp
    exact IsPlainOpening.eq_of_fits ⟨head, hhead, rfl⟩ hfits'' he
  obtain rfl : head = "function".toList ++ p := by
    rw [htext, ← List.append_assoc] at hsame
    exact List.append_cancel_right hsame
  refine ⟨m', hm', by rw [hparts], hstart, hbrace, hsame.symm, ?_, hbracket⟩
  rw [hbrace, List.length_append, (Text.blockScan_append l (c ++ r) _).1, hparts,
    Text.blockEnd?_of_block (rest ++ r) hbracket hends, Option.map_some, Nat.add_comm,
    ← List.length_append]

/-- A component alone is the component of its text with blanks around it. -/
theorem IsAlone.ofText_blanks (h : IsAlone c) (hl : ∀ z ∈ l, isBlank z = true) (r : Text) :
    ofText .standard (l ++ (c ++ r)) = { text := c, mode := .span } := by
  obtain ⟨m, head, block, gap, hs, hhead, hne, hgap⟩ := h.exists_spans
  obtain ⟨m', hs'⟩ := hs.blanks hhead hl r
  rw [hs'.ofText_eq, List.append_assoc gap, separator_mount_append hgap hne]
  exact congrArg (Component.mk · .span [] []) hs.parts.symm

end SnippetGate.Component
