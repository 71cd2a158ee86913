import SnippetGate.Proofs.Component.Sliced
import SnippetGate.Proofs.Pattern.Fits

/-!
# Isolating a component twice

A component that is isolated from its own text is the same. Where it was there as a whole, its
declaration stands at the beginning of the new text, its block ends where it ended, and the mount
call behind it is found. Where it was cut off and closed, it is now there as a whole: its block ends
with the last of the closers.
-/

namespace SnippetGate

open Pattern ScanState

/-! ### Patterns that look at nothing around a piece -/

namespace Pattern

variable {p a b : Pattern} {u u' w v v' : Text}

/-- Whether a pattern is made of characters alone. -/
def isInner : Pattern → Bool
  | .empty => true
  | .one _ => true
  | .run _ _ => true
  | .seq a b => a.isInner && b.isInner
  | .alt a b => a.isInner && b.isInner
  | _ => false

/-- What stands around a piece does not matter to such a pattern. -/
theorem Fits.of_isInner (hp : p.isInner = true) (h : p.Fits u w v) : p.Fits u' w v' := by
  induction p generalizing u w v u' v' with
  | empty => exact h
  | one q => exact h
  | run q greedy => exact h
  | seq a b iha ihb =>
    rw [isInner, Bool.and_eq_true] at hp
    obtain ⟨w₁, w₂, rfl, h₁, h₂⟩ := h
    exact ⟨w₁, w₂, rfl, iha hp.1 h₁, ihb hp.2 h₂⟩
  | alt a b iha ihb =>
    rw [isInner, Bool.and_eq_true] at hp
    exact h.imp (iha hp.1) (ihb hp.2)
  | _ => cases hp

/-- A pattern has its leftmost piece at the beginning of a text that begins with one. -/
theorem exists_search?_of_fits (h : p.Fits [] w v) :
    ∃ m, p.search? (w ++ v) = some m ∧ m.start = 0 := by
  have hl : p.Leads ⟨.ofText (w ++ v), []⟩ fun _ => True := by
    obtain ⟨m, hm, -⟩ := leads_of_fits h 0 []
    exact ⟨m, hm, trivial⟩
  obtain ⟨m, hm⟩ := Option.isSome_iff_exists.mp (isSome_search?.mpr ⟨[], w ++ v, rfl, hl⟩)
  exact ⟨m, hm, Nat.le_zero.mp (start_le_of_searchFrom? hm (Cursor.over_nil _) hl)⟩

end Pattern

/-! ### The declaration at the beginning of a text -/

/-- What fits the declaration of the entry point with its brace: perhaps a type stands before the
blanks at the end. -/
theorem exists_of_fits_entryOpening {u w v : Text}
    (h : Settings.standard.entryOpening.Fits u w v) :
    ∃ g b p k o k' : Text, g ≠ [] ∧ (∀ z ∈ g ++ (b ++ (k ++ k')), isBlank z = true) ∧
      (∀ z ∈ p, (z != ')') = true) ∧ (o = [] ∨ ∃ o', o = ':' :: o') ∧
      w = "function".toList ++ (g ++ ("GeneratedLesson".toList ++ (b ++ ('(' :: (p ++
        (')' :: (k ++ (o ++ (k' ++ ['{']))))))))) := by
  obtain ⟨_, w, rfl, ⟨rfl, -⟩, h⟩ := h
  obtain ⟨w₁, w, rfl, h₁, h⟩ := h
  obtain ⟨w₂, w, rfl, ⟨_, g, rfl, ⟨x, rfl, hx⟩, hg⟩, h⟩ := h
  obtain ⟨w₃, w, rfl, h₃, h⟩ := h
  obtain ⟨b, w, rfl, hb, h⟩ := h
  obtain ⟨_, w, rfl, ⟨x₁, rfl, hx₁⟩, h⟩ := h
  obtain ⟨p, w, rfl, hp, h⟩ := h
  obtain ⟨_, w, rfl, ⟨x₂, rfl, hx₂⟩, h⟩ := h
  obtain ⟨k, w, rfl, hk, h⟩ := h
  obtain ⟨o, w, rfl, ho, h⟩ := h
  obtain ⟨k', _, rfl, hk', ⟨x₃, rfl, hx₃⟩⟩ := h
  obtain rfl : w₁ = "function".toList := fits_text.mp h₁
  obtain rfl : w₃ = "GeneratedLesson".toList := fits_text.mp h₃
  obtain rfl : x₁ = '(' := by simpa using hx₁
  obtain rfl : x₂ = ')' := by simpa using hx₂
  obtain rfl : x₃ = '{' := by simpa using hx₃
  refine ⟨x :: g, b, p, k, o, k', List.cons_ne_nil x g, ?_, hp, ?_, by simp⟩
  · simp only [List.forall_mem_append, List.forall_mem_cons]
    exact ⟨⟨hx, hg⟩, hb, hk, hk'⟩
  · rcases ho with ⟨_, o', rfl, ⟨x₄, rfl, hx₄⟩, -⟩ | ho
    · obtain rfl : x₄ = ':' := by simpa using hx₄
      exact .inr ⟨o', rfl⟩
    · exact .inl ho

/-- A declaration that fits somewhere fits at the beginning of a text. -/
theorem fits_entryOpening_nil {u w v : Text} (h : Settings.standard.entryOpening.Fits u w v)
    (v' : Text) : Settings.standard.entryOpening.Fits [] w v' := by
  obtain ⟨_, w, rfl, ⟨rfl, -⟩, h⟩ := h
  refine ⟨[], w, rfl, ⟨rfl, ?_⟩, h.of_isInner (by decide)⟩
  obtain ⟨w₁, w₂, rfl, h₁, -⟩ := h
  obtain rfl : w₁ = "function".toList := fits_text.mp h₁
  -- the text begins with a word, and nothing stands before it
  have hword : "function".toList = 'f' :: "unction".toList := rfl
  rw [hword]
  exact Bool.false_ne_true

/-- Nothing but a plain declaration fits where a plain one stands. -/
theorem IsPlainOpening.eq_of_fits {u w w' v r r' : Text} (hw : IsPlainOpening w)
    (h : Settings.standard.entryOpening.Fits u w' v) (he : w ++ r = w' ++ r') : w = w' := by
  obtain ⟨_, ⟨b₁, b₂, b₃, b₄, hb, rfl⟩, rfl⟩ := hw
  obtain ⟨g, b, p, k, o, k', -, hg, hp, ho, rfl⟩ := exists_of_fits_entryOpening h
  have hname : "GeneratedLesson".toList = 'G' :: "eneratedLesson".toList := rfl
  simp only [List.forall_mem_append] at hb hg
  obtain ⟨hb₁, hb₂, hb₃, hb₄⟩ := hb
  obtain ⟨hg, hb, hk, hk'⟩ := hg
  have hb₃' : ∀ z ∈ b₃, (z != ')') = true := fun z hz => by
    rw [bne_iff_ne]
    rintro rfl
    exact absurd (hb₃ _ hz) (by decide)
  simp only [List.append_assoc, List.cons_append, List.nil_append, hname] at he
  obtain ⟨rfl, -, he⟩ := Text.eq_of_first_of_other hb₁ hg (by decide) (by decide)
    (List.append_cancel_left he)
  obtain ⟨rfl, -, he⟩ := Text.eq_of_first_of_other hb₂ hb (by decide) (by decide)
    (List.append_cancel_left he)
  obtain ⟨rfl, -, he⟩ := Text.eq_of_first_of_other hb₃' hp (by decide) (by decide) he
  suffices hend : b₄ ++ ['{'] = k ++ (o ++ (k' ++ ['{'])) by
    simp only [List.append_assoc, List.cons_append, List.nil_append, hend]
  rcases ho with rfl | ⟨o, rfl⟩
  · rw [List.nil_append, ← List.append_assoc] at he ⊢
    obtain ⟨rfl, -, -⟩ := Text.eq_of_first_of_other hb₄ (List.forall_mem_append.mpr ⟨hk, hk'⟩)
      (by decide) (by decide) he
    rfl
  · -- a colon is no blank and no brace
    obtain ⟨-, hcolon, -⟩ := Text.eq_of_first_of_other hb₄ hk (by decide) (by decide) he
    cases hcolon

namespace Component

variable {t head block rest region r e : Text} {m : Match}

/-- A plain declaration that was found is found again where a text begins with it. -/
theorem exists_search?_of_plain (h : Settings.standard.entryOpening.search? t = some m)
    (hm : m.text = head ++ ['{']) (hhead : IsPlainHead head) (r : Text) :
    ∃ m', Settings.standard.entryOpening.search? (head ++ '{' :: r) = some m' ∧ m'.start = 0 ∧
      m'.stop - 1 = head.length := by
  have hexplicit : Settings.standard.entryOpening.isExplicit = true := by decide
  obtain ⟨w, ho, hfits⟩ := exists_fits_of_mem_ends hexplicit (finds_of_searchFrom? h).last
  obtain rfl : w = head ++ ['{'] := by rw [← hm, Match.text, ho.between]
  obtain ⟨m', hm', hstart⟩ := exists_search?_of_fits (fits_entryOpening_nil hfits r)
  rw [List.append_assoc, List.singleton_append] at hm'
  refine ⟨m', hm', hstart, ?_⟩
  have hfinds := finds_of_searchFrom? hm'
  obtain ⟨before, ht, hbefore, hstop⟩ := hfinds.split
  obtain rfl : before = [] := List.length_eq_zero_iff.mp (hbefore.symm.trans hstart)
  obtain ⟨w', ho', hfits'⟩ := exists_fits_of_mem_ends hexplicit hfinds.last
  obtain rfl : w' = m'.text := ho'.between.symm
  -- the search may prefer another piece there, but a plain declaration fits in one way only
  have htext : head ++ ['{'] = m'.text := IsPlainOpening.eq_of_fits ⟨head, hhead, rfl⟩ hfits'
    (by rw [List.append_assoc, List.singleton_append]; exact ht)
  rw [hstop, ← htext]
  simp

/-! ### The second time -/

/-- The blanks before a mount call are kept, whatever follows it. -/
theorem separator_mount_append {b : Text} (hb : ∀ z ∈ b, isBlank z = true) (hne : b ≠ [])
    (r : Text) : separator .standard (b ++ (Settings.standard.canonicalMount ++ r)) = b := by
  have hhead : (Settings.standard.canonicalMount ++ r).head? = some 'r' := rfl
  obtain ⟨htake, -⟩ := takeWhile_blanks (r := Settings.standard.canonicalMount ++ r) hb (by
    rw [hhead]
    rintro _ ⟨⟩
    decide)
  have hcall : (Settings.standard.mountCall.matchAt?
      (.ofText (Settings.standard.canonicalMount ++ r))).isSome = true :=
    isSome_matchAt?.mpr (leads_mountCall.mpr ⟨nofun, Settings.standard.mountExpression, ';' :: r,
      by simp [Settings.canonicalMount], isMount_mountExpression⟩)
  simp only [separator, htake, List.drop_left, hcall, Bool.and_true]
  rw [if_pos]
  simpa using hne

theorem separator_mount {b : Text} (hb : ∀ z ∈ b, isBlank z = true) (hne : b ≠ []) :
    separator .standard (b ++ Settings.standard.canonicalMount) = b := by
  have h := separator_mount_append hb hne []
  rwa [List.append_nil] at h

/-- A text that begins with its declaration, and whose block is followed by blanks and the mount
call, is its own component. -/
theorem text_ofText_of_blockEnd? {b : Text}
    (h : Settings.standard.entryOpening.search? t = some m) (hm : m.text = head ++ ['{'])
    (hhead : IsPlainHead head) (hb : ∀ z ∈ b, isBlank z = true) (hne : b ≠ [])
    (hend : (head ++ '{' :: (r ++ (b ++ Settings.standard.canonicalMount))).blockEnd? head.length =
      some (head ++ '{' :: r).length) :
    (ofText .standard (head ++ '{' :: (r ++ (b ++ Settings.standard.canonicalMount)))).text =
      head ++ '{' :: (r ++ (b ++ Settings.standard.canonicalMount)) := by
  obtain ⟨m', hm', hstart, hbrace⟩ := exists_search?_of_plain h hm hhead
    (r ++ (b ++ Settings.standard.canonicalMount))
  have hassoc : head ++ '{' :: (r ++ (b ++ Settings.standard.canonicalMount)) =
      (head ++ '{' :: r) ++ (b ++ Settings.standard.canonicalMount) := by simp
  rw [ofText, hm']
  dsimp only
  rw [hbrace, hend]
  dsimp only
  rw [hstart, hassoc, Text.slice, List.take_left, List.drop_left, List.drop_zero,
    separator_mount hb hne, List.append_assoc]

/-- A component that was there as a whole is left as it is. -/
theorem text_ofText_of_spans {before : Text} (h : Spans .standard t m before head block rest)
    (hhead : IsPlainHead head) :
    (ofText .standard (ofText .standard t).text).text = (ofText .standard t).text := by
  obtain ⟨hends, -⟩ := h.ends_behind
  have hagain := Text.blockEnd?_of_block
    (separator .standard rest ++ Settings.standard.canonicalMount) h.bracket hends
  rw [h.ofText_eq]
  obtain ⟨q, x, rfl, -⟩ := h.bracket
  exact text_ofText_of_blockEnd? h.found h.opening hhead (fun z => isBlank_of_mem_separator)
    (separator_ne_nil rest) hagain

/-- Where the block of a component is left open, all of the text behind its brace belongs to it. -/
theorem ofText_eq_ofTruncated (h : Settings.standard.entryOpening.search? t = some m)
    (hm : m.text = head ++ ['{']) (hhead : IsPlainHead head)
    (hopen : (head ++ '{' :: r).blockEnd? head.length = none) :
    ofText .standard (head ++ '{' :: r) = ofTruncated .standard (head ++ '{' :: r) := by
  obtain ⟨m', hm', hstart, hbrace⟩ := exists_search?_of_plain h hm hhead r
  rw [ofText, hm']
  dsimp only
  rw [hbrace, hopen, hstart, List.drop_zero]

/-- The part of a text up to the end of a tag reaches behind the brace of a plain declaration. -/
theorem exists_append_of_getLast? {cut : Nat} (hhead : IsPlainHead head)
    (hend : ((head ++ '{' :: r).take cut).getLast? = some '>') :
    ∃ r₁ r₂, (head ++ '{' :: r).take cut = head ++ '{' :: r₁ ∧ r = r₁ ++ r₂ ∧ EndsAlone r₁ := by
  have hassoc (r : Text) : head ++ '{' :: r = (head ++ ['{']) ++ r := by simp
  rw [hassoc, List.take_append] at hend ⊢
  by_cases hnil : r.take (cut - (head ++ ['{']).length) = []
  · -- no tag ends in the declaration
    rw [hnil, List.append_nil] at hend
    have hmem := List.mem_of_mem_take (List.mem_of_getLast? hend)
    rcases List.mem_append.mp hmem with h | h
    · exact absurd h (hhead.not_mem (by decide) (by decide))
    · exact absurd h (by decide)
  · have hlen : (head ++ ['{']).length ≤ cut := by
      by_contra hlt
      exact hnil (by rw [Nat.sub_eq_zero_of_le (by omega), List.take_zero])
    rw [List.getLast?_append_of_ne_nil _ hnil] at hend
    generalize cut - (head ++ ['{']).length = k at hend ⊢
    refine ⟨r.take k, r.drop k, ?_, (List.take_append_drop k r).symm, fun z hz => ?_⟩
    · rw [List.take_of_length_le hlen]
      exact (hassoc _).symm
    · rw [hend] at hz
      obtain rfl := Option.some.inj hz
      rfl

/-- A component that was cut off and could be closed is left as it is. -/
theorem text_ofText_of_closings {r₁ r₂ e : Text}
    (h : Settings.standard.entryOpening.search? t = some m) (hm : m.text = head ++ ['{'])
    (hhead : IsPlainHead head) (hopen : (head ++ '{' :: (r₁ ++ r₂)).blockEnd? head.length = none)
    (hend : EndsAlone r₁) (honly : (Scan.ofText (head ++ '{' :: r₁)).isOnlyUnclosed = true)
    (htags : ∀ f ∈ (Scan.ofText (head ++ '{' :: r₁)).unclosed, f.isOpening = false)
    (hc : Closings (Scan.ofText (head ++ '{' :: r₁)).unclosed.reverse e) :
    (ofText .standard (head ++ '{' :: r₁ ++ e ++ "\n\n".toList ++
      Settings.standard.canonicalMount)).text =
        head ++ '{' :: r₁ ++ e ++ "\n\n".toList ++ Settings.standard.canonicalMount := by
  have hclosed := Text.blockEnd?_of_closings
    (v := "\n\n".toList ++ Settings.standard.canonicalMount) (fun _ _ => hhead.reads) hopen hend
    honly htags hc
  have hagain := text_ofText_of_blockEnd? (r := r₁ ++ e) (b := "\n\n".toList) h hm hhead (by decide)
    (by decide) (by rwa [List.append_assoc])
  simpa only [List.append_assoc, List.cons_append] using hagain

/-- A component that was cut off is left as it is. -/
theorem text_ofText_of_truncated (h : Settings.standard.entryOpening.search? t = some m)
    (hm : m.text = head ++ ['{']) (hhead : IsPlainHead head)
    (hopen : (head ++ '{' :: r).blockEnd? head.length = none) :
    (ofText .standard (ofTruncated .standard (head ++ '{' :: r)).text).text =
      (ofTruncated .standard (head ++ '{' :: r)).text := by
  have hsame := congrArg Component.text (ofText_eq_ofTruncated h hm hhead hopen)
  cases hcut : cut? (head ++ '{' :: r) with
  | none =>
    -- there is no place to cut
    have hleft : (ofTruncated .standard (head ++ '{' :: r)).text = head ++ '{' :: r := by
      rw [ofTruncated, hcut]
      rfl
    rwa [hleft] at hsame ⊢
  | some cut =>
    have hlast := getLast?_of_cut? hcut
    have hbody : Text.trimEnd ((head ++ '{' :: r).take cut) = (head ++ '{' :: r).take cut :=
      Text.trimEnd_eq_self (by rw [hlast]; rintro _ ⟨⟩; decide)
    obtain ⟨r₁, r₂, htake, rfl, hend⟩ := exists_append_of_getLast? hhead hlast
    rw [htake] at hbody
    by_cases hbad : (!(Scan.ofText (head ++ '{' :: r₁)).isOnlyUnclosed ||
        (Scan.ofText (head ++ '{' :: r₁)).unclosed.any Frame.isOpening) = true
    · -- what is left cannot be closed
      have hleft : (ofTruncated .standard (head ++ '{' :: (r₁ ++ r₂))).text =
          head ++ '{' :: (r₁ ++ r₂) := by
        simp only [ofTruncated, hcut, htake, hbody, if_pos hbad, leftOpen]
      rwa [hleft] at hsame ⊢
    · have hgood := hbad
      simp only [Bool.or_eq_true, Bool.not_eq_true', not_or, Bool.not_eq_false, Bool.not_eq_true,
        List.any_eq_false] at hgood
      obtain ⟨honly, htags⟩ := hgood
      obtain ⟨e, he, hc⟩ := exists_closings_closeFrames
        (fun f hf => exists_closes_of_isOnlyUnclosed honly f (List.mem_reverse.mp hf))
        (head ++ '{' :: r₁)
      have hclosed : (ofTruncated .standard (head ++ '{' :: (r₁ ++ r₂))).text =
          head ++ '{' :: r₁ ++ e ++ "\n\n".toList ++ Settings.standard.canonicalMount := by
        simp only [ofTruncated, hcut, htake, hbody, if_neg hbad, he]
      rw [hclosed]
      exact text_ofText_of_closings h hm hhead hopen hend honly htags hc

/-- If there is no declaration of the entry point, or the first one is plain, then to isolate the
component twice is the same as to isolate it once. -/
theorem text_ofText_ofText
    (h : ∀ m ∈ Settings.standard.entryOpening.search? t, IsPlainOpening m.text) :
    (ofText .standard (ofText .standard t).text).text = (ofText .standard t).text := by
  cases hmode : (ofText .standard t).mode with
  | missing =>
    have hsame := text_of_missing hmode
    rw [hsame, hsame]
  | span =>
    obtain ⟨m, before, head, block, rest, hs⟩ := exists_spans_of_mode hmode
    obtain ⟨head', hhead, he⟩ := h m hs.found
    obtain rfl : head = head' := List.append_cancel_right (hs.opening.symm.trans he)
    exact text_ofText_of_spans hs hhead
  | truncated =>
    cases hm : Settings.standard.entryOpening.search? t with
    | none => simp [ofText, hm] at hmode
    | some m =>
      obtain ⟨head, hhead, htext⟩ := h m hm
      obtain ⟨before, p, r, ht, hstart, hbrace, htext'⟩ := exists_parts_of_entryOpening hm
      have hp : "function".toList ++ p = head :=
        List.append_cancel_right (by simpa using htext'.symm.trans htext)
      rw [← List.append_assoc "function".toList, hp] at ht
      rw [hp] at hbrace
      cases hblock : t.blockEnd? (m.stop - 1) with
      | some stop => simp [ofText, hm, hblock] at hmode
      | none =>
        have hregion : ofText .standard t = ofTruncated .standard (head ++ '{' :: r) := by
          have hdrop : t.drop m.start = head ++ '{' :: r := by rw [hstart, ht, List.drop_left]
          simp only [ofText, hm, hblock, hdrop]
        -- what stands before the declaration does not matter to its block
        have hopen : (head ++ '{' :: r).blockEnd? head.length = none := by
          have hend := (Text.blockScan_append before (head ++ '{' :: r) head.length).1
          rw [← List.length_append, ← hbrace, ← ht, hblock] at hend
          exact Option.map_eq_none_iff.mp hend.symm
        rw [hregion]
        exact text_ofText_of_truncated hm htext hhead hopen

/-- A component that was cut off in a list, behind other code. -/
def cutShort : Text :=
  "let a; function GeneratedLesson( )\x7breturn (<ul>\x7b[<li>a</li>, <li".toList

theorem text_ofText_ofText_cutShort :
    (∀ m ∈ Settings.standard.entryOpening.search? cutShort, IsPlainOpening m.text) ∧
      (ofText .standard cutShort).closers = ["]", "\x7d", "</ul>", ");", "\x7d"].map String.toList ∧
      (ofText .standard (ofText .standard cutShort).text).text =
        (ofText .standard cutShort).text := by
  have hfound : (Settings.standard.entryOpening.search? cutShort).map Match.text =
      some "function GeneratedLesson( )\x7b".toList := by decide +kernel
  have hplain : ∀ m ∈ Settings.standard.entryOpening.search? cutShort, IsPlainOpening m.text := by
    intro m hm
    rw [Option.mem_def.mp hm] at hfound
    exact ⟨_, ⟨[' '], [], [' '], [], by decide, rfl⟩, Option.some.inj hfound⟩
  exact ⟨hplain, by decide +kernel, text_ofText_ofText hplain⟩

end Component

end SnippetGate
