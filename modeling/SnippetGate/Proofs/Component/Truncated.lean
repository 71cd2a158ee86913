import SnippetGate.Component
import SnippetGate.Proofs.Balance.Closing
import SnippetGate.Proofs.Pattern.Ends
import SnippetGate.Proofs.Text.Basic

/-!
# A component that was cut off is closed rightly

The text of a component that was cut off ends with a closing tag. Every closer put behind it is one
of its frame, so the component is balanced.
-/

namespace SnippetGate

open Pattern ScanState

/-! ### Where the text is cut -/

namespace Text

variable {part t : Text} {i : Nat}

theorem prefix_drop_of_findLast? (h : findLast? part t = some i) : part <+: t.drop i := by
  induction t generalizing i with
  | nil =>
    rw [findLast?] at h
    split at h
    · next he =>
      obtain rfl := List.isEmpty_iff.mp he
      exact List.nil_prefix
    · cases h
  | cons x t ih =>
    rw [findLast?] at h
    split at h
    · next j hj =>
      obtain rfl := Option.some.inj h
      exact ih hj
    · split at h
      · next hp =>
        obtain rfl := Option.some.inj h
        exact List.isPrefixOf_iff_prefix.mp hp
      · cases h

/-- What is found stands at the end of the text up to where it ends. -/
theorem take_of_findLast? (h : findLast? part t = some i) :
    t.take (i + part.length) = t.take i ++ part := by
  obtain ⟨r, hr⟩ := prefix_drop_of_findLast? h
  rw [List.take_add, ← hr, List.take_left]

end Text

namespace Component

variable {region t : Text} {i : Nat}

theorem getLast?_of_rootCut? (h : rootCut? region = some i) :
    (region.take i).getLast? = some '>' := by
  simp only [rootCut?, Option.bind_eq_bind, Option.bind_eq_some_iff, Option.pure_def,
    Option.some.injEq] at h
  obtain ⟨m, -, j, hj, -, -, rfl⟩ := h
  rw [Text.take_of_findLast? hj, Closer.display, ← List.append_assoc, List.getLast?_concat]

/-- Every piece of a pattern that ends with a character ends with that character. -/
theorem head?_before_of_mem_ends_char {x : Char} {s u : Progress} (h : u ∈ (char x).ends s) :
    u.cursor.before.head? = some x := by
  obtain ⟨y, hy, ho, -⟩ := mem_ends_one h
  obtain rfl : y = x := by simpa using hy
  rw [ho.before]
  rfl

theorem head?_before_of_mem_ends_anyClosingTag {s u : Progress} (h : u ∈ anyClosingTag.ends s) :
    u.cursor.before.head? = some '>' := by
  rcases mem_ends_alt.mp h with h | h
  · obtain ⟨v, -, h⟩ := mem_ends_seq.mp h
    obtain ⟨v, -, h⟩ := mem_ends_seq.mp h
    obtain ⟨v, -, h⟩ := mem_ends_seq.mp h
    exact head?_before_of_mem_ends_char h
  · obtain ⟨v, -, h⟩ := mem_ends_seq.mp h
    obtain ⟨v, -, h⟩ := mem_ends_seq.mp h
    exact head?_before_of_mem_ends_char h

theorem getLast?_take_stop {p : Pattern} {m : Match} (h : p.Finds (.ofText t) m) :
    (t.take m.stop).getLast? = m.last.cursor.before.head? := by
  obtain ⟨a, b, ha, hb⟩ := h.exists_over
  have ho := ha.trans hb
  have ht : t = a ++ b ++ m.last.cursor.after := ho.after
  have hstop : m.stop = (a ++ b).length := ho.pos.trans (Nat.zero_add _)
  rw [hstop, ho.before, ht, List.take_left]
  simp [Cursor.ofText]

/-- A text that was cut off ends with a tag. -/
theorem getLast?_of_cut? (h : cut? region = some i) :
    (region.take i).getLast? = some '>' := by
  unfold cut? at h
  cases hr : rootCut? region with
  | some j =>
    rw [hr] at h
    obtain rfl := Option.some.inj h
    exact getLast?_of_rootCut? hr
  | none =>
    rw [hr] at h
    obtain ⟨m, hm, rfl⟩ := Option.map_eq_some_iff.mp h
    have hf := finds_of_findLast? hm
    rw [getLast?_take_stop hf]
    exact head?_before_of_mem_ends_anyClosingTag hf.last

/-! ### The closers -/

/-- The closer that is put is one of its frame. -/
theorem closes_closerOf (body : Text) {f : Frame} (h : ∃ t, f.Closes t) :
    f.Closes (closerOf body f) := by
  have bracket {x y : Char} {p : Nat} (hp : Grammar.IsPair .script x y) :
      (Frame.bracket x p).Closes (closerOf body (.bracket x p)) := by
    have hkind : (Frame.bracket x p).kind = .bracket := rfl
    have htoken : (Frame.bracket x p).token = [x] := rfl
    rw [closerOf, hkind, htoken]
    dsimp only
    split
    · next hx =>
      obtain ⟨rfl⟩ : x = '(' := by simpa using hx.1
      exact .statement p
    · have hy : bracketCloser [x] = [y] := by
        rcases hp with ⟨rfl, rfl⟩ | ⟨rfl, rfl⟩ | ⟨rfl, rfl⟩ <;> rfl
      rw [hy]
      exact .bracket p hp
  obtain ⟨t, h⟩ := h
  cases h with
  | tag name pos phase => exact .tag name pos phase
  | bracket p hp => exact bracket hp
  | statement p => exact bracket (.inl ⟨rfl, rfl⟩)

theorem isIndent_of_mem_indentAt {x : Char} {p : Nat} (h : x ∈ t.indentAt p) :
    Text.isIndent x = true :=
  List.all_eq_true.mp List.all_takeWhile x h

/-- What is put behind a text closes its frames. -/
theorem exists_closings_closeFrames {fs : List Frame} (h : ∀ f ∈ fs, ∃ t, f.Closes t)
    (body : Text) : ∃ e, (closeFrames fs body).1 = body ++ e ∧ Closings fs e := by
  induction fs generalizing body with
  | nil => exact ⟨[], (List.append_nil body).symm, .nil⟩
  | cons f fs ih =>
    obtain ⟨e, he, hc⟩ := ih (fun g hg => h g (List.mem_cons_of_mem f hg))
      (body ++ '\n' :: body.indentAt f.pos ++ closerOf body f)
    refine ⟨_, ?_, .cons (fun x => isIndent_of_mem_indentAt (t := body) (p := f.pos))
      (closes_closerOf body (h f List.mem_cons_self)) hc⟩
    rw [closeFrames, he]
    simp

/-- A component that was cut off and could be closed is balanced. -/
theorem isBalanced_of_truncated {cfg : Settings}
    (hf : ∀ x ∈ cfg.mountFunction, isInert x = true) (hn : IsTagName cfg.entryName)
    (h : (ofTruncated cfg region).closers ≠ []) :
    (Scan.ofText (ofTruncated cfg region).text).isBalanced = true := by
  unfold ofTruncated at h ⊢
  cases hcut : cut? region with
  | none => rw [hcut] at h; exact absurd rfl h
  | some cut =>
    have hend := getLast?_of_cut? hcut
    have hbody : Text.trimEnd (region.take cut) = region.take cut :=
      Text.trimEnd_eq_self (by rw [hend]; rintro _ ⟨⟩; decide)
    rw [hcut] at h
    dsimp only at h ⊢
    rw [hbody] at h ⊢
    generalize region.take cut = body at h hend ⊢
    split
    · next hbad => rw [if_pos hbad] at h; exact absurd rfl h
    · next hgood =>
      simp only [Bool.or_eq_true, Bool.not_eq_true', not_or, Bool.not_eq_false,
        Bool.not_eq_true, List.any_eq_false] at hgood
      obtain ⟨honly, htags⟩ := hgood
      obtain ⟨e, he, hc⟩ := exists_closings_closeFrames
        (fun f hf => exists_closes_of_isOnlyUnclosed honly f (List.mem_reverse.mp hf)) body
      dsimp only
      rw [he, List.append_assoc, List.append_assoc]
      exact isBalanced_of_closings hf hn hend honly htags hc (by decide)

/-- A component begins where it is declared, and one without a closing brace is cut off. -/
theorem exists_ofText_eq_ofTruncated {cfg : Settings} (h : (ofText cfg t).closers ≠ []) :
    ∃ region, ofText cfg t = ofTruncated cfg region := by
  unfold ofText at h ⊢
  cases hs : cfg.entryOpening.search? t with
  | none => rw [hs] at h; exact absurd rfl h
  | some opening =>
    cases hb : t.blockEnd? (opening.stop - 1) with
    | none => exact ⟨t.drop opening.start, by simp only [hb]⟩
    | some stop => simp only [hs, hb] at h; exact absurd rfl h

theorem isTagName_standard : IsTagName Settings.standard.entryName :=
  ⟨'G', "eneratedLesson".toList, by decide, by decide, by decide⟩

/-- A component that was cut off is balanced once anything was put behind it. The reason is that a
text which ends with a closing tag, and in which nothing is wrong but that frames are open, none
of them a tag among its attributes, is balanced with the closers of the frames, innermost first,
and the mount call behind it. -/
theorem closers_balance :
    (∀ t : Text, (ofText .standard t).mode = .truncated → (ofText .standard t).closers ≠ [] →
      (Scan.ofText (ofText .standard t).text).isBalanced = true) ∧
    ∀ t closer name closers gap : Text, IsClosingTag name closer →
      (Scan.ofText (t ++ closer)).isOnlyUnclosed = true →
      (∀ f ∈ (Scan.ofText (t ++ closer)).unclosed, f.isOpening = false) →
      Closings (Scan.ofText (t ++ closer)).unclosed.reverse closers →
      (∀ x ∈ gap, isBlank x = true) →
      (Scan.ofText (t ++ closer ++ (closers ++ (gap ++ Settings.standard.canonicalMount)))
        ).isBalanced = true := by
  have inert : ∀ x ∈ Settings.standard.mountFunction, isInert x = true := by decide
  constructor
  · intro t _ hc
    obtain ⟨region, hr⟩ := exists_ofText_eq_ofTruncated hc
    rw [hr] at hc ⊢
    exact isBalanced_of_truncated inert isTagName_standard hc
  · intro t closer name closers gap hcl honly htags hc hgap
    have hend : (t ++ closer).getLast? = some '>' := by
      obtain ⟨_, ⟨-, b₁, b₂, -, -, rfl⟩, rfl⟩ := hcl
      have hsplit : t ++ '<' :: '/' :: (b₁ ++ name ++ b₂ ++ ['>']) =
          (t ++ '<' :: '/' :: (b₁ ++ name ++ b₂)) ++ ['>'] := by simp
      rw [hsplit, List.getLast?_concat]
    exact isBalanced_of_closings inert isTagName_standard hend honly htags hc hgap

theorem closers_balance_cutShort :
    (Scan.ofText (ofText .standard
      "function GeneratedLesson()\x7breturn (<ul>\x7b[<li>a</li>".toList).text).isBalanced = true ∧
    (Scan.ofText ("\x7b(<b>".toList ++ "</b>".toList ++ ("\n\t);\n\x7d".toList ++
      ("\n\n".toList ++ Settings.standard.canonicalMount)))).isBalanced = true := by
  have hb : IsClosingTag "b".toList "</b>".toList :=
    isClosingTag_display (.inr ⟨'b', [], rfl, by decide, by decide⟩)
  have hunclosed : (Scan.ofText ("\x7b(<b>".toList ++ "</b>".toList)).unclosed.reverse =
      [.bracket '(' 1, .bracket '{' 0] := by decide +kernel
  have hclosings : Closings [.bracket '(' 1, .bracket '{' 0]
      ('\n' :: (['\t'] ++ ");".toList ++ ('\n' :: ([] ++ ['}'] ++ [])))) :=
    .cons (by decide) (.statement 1) (.cons nofun (.bracket 0 (.inr (.inr ⟨rfl, rfl⟩))) .nil)
  exact ⟨closers_balance.1 _ (by decide +kernel) (by decide +kernel),
    closers_balance.2 _ _ _ _ _ hb (by decide +kernel) (by decide +kernel)
      (hunclosed ▸ hclosings) (by decide)⟩

end Component

end SnippetGate
