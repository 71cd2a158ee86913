import SnippetGate.Proofs.Handler.Empty

/-!
# Filled handlers

Filling takes one form of functions after the other. What is filled in neither begins an empty
handler nor stands in one, so an empty handler of the new text is one of the old text. And those that
could be filled are gone: where one begins inside of another of its form the two end together.
-/

namespace SnippetGate.Repair

open Pattern Signature Handler Handler.Form

variable {f g : Form} {vs : List StateVar} {c t u v v' l n r s w x y i h ps z b : Text} {m : Match}
  {lines : List Text}

/-- With every name come lines that can stand in a block. -/
def IsSound (vs : List StateVar) (c : Text) : Prop :=
  ∀ ⦃n lines⦄, handlerLines? vs c n = some lines → IsBody lines

/-! ### Matches of empty handlers -/

/-- Between `u` and `v` an empty handler of the form begins that has the name `n`. -/
def Begins (f : Form) (n u v : Text) : Prop :=
  ∃ w r i, v = w ++ r ∧ f.pattern.FitsWith u w r [(2, n), (1, i)]

theorem isExplicit_pattern : f.pattern.isExplicit = true := by
  cases f <;> rfl

theorem neverEmpty_pattern : f.pattern.NeverEmpty := by
  intro m hm
  obtain ⟨w, κ, ho, hf, -⟩ := exists_fitsWith_of_mem_ends isExplicit_pattern hm
  obtain ⟨-, i, n, h, ps, z, b, -, rfl, -⟩ := of_fitsWith hf
  have htext : m.text = written h ps z b := ho.between
  rw [htext]
  simp [written]

theorem fitsWith_move {κ : List (Nat × Text)} (h : f.pattern.FitsWith l w r κ)
    (he : l.getLast? = u.getLast?) (s : Text) : f.pattern.FitsWith u w s κ := by
  cases f <;>
  · obtain ⟨_, w, rfl, ⟨rfl, hline⟩, hw⟩ := (fitsWith_seq_iff rfl).mp h
    exact (fitsWith_seq_iff rfl).mpr ⟨[], w, rfl, ⟨rfl, he ▸ hline⟩, hw.move rfl _ _⟩

/-- What is matched is an empty handler. -/
theorem exists_isEmpty_of_takes (h : f.pattern.Takes u m v) :
    ∃ h ps z b, m.text = written h ps z b ∧ f.IsEmpty (m.group 1) (m.group 2) h ps z b ∧
    f.pattern.FitsWith u m.text v [(2, m.group 2), (1, m.group 1)] := by
  obtain ⟨κ, hκ, hgroup⟩ := h.fitsWith isExplicit_pattern
  obtain ⟨-, i, n, h, ps, z, b, rfl, htext, he⟩ := of_fitsWith hκ
  have h₁ : m.group 1 = i := hgroup 1
  have h₂ : m.group 2 = n := hgroup 2
  rw [h₁, h₂]
  exact ⟨h, ps, z, b, htext, he, hκ⟩

/-- No empty handler begins in a filled block. -/
theorem not_begins_in_block {κ : List (Nat × Text)} (hb : IsBody lines)
    (hi : ∀ x ∈ i, Text.isIndent x = true) (hblock : block lines i = x ++ y) (hy : y ≠ [])
    (hw : f.pattern.FitsWith (l ++ x) w r κ) : y ++ s ≠ w ++ r := by
  obtain ⟨hline, _, _, h, ps, z, b, -, rfl, he⟩ := of_fitsWith hw
  intro heq
  refine absurd ?_ (hb.not_opens (s := s) hi hblock (fun z hz => hline z ?_) hy)
  · rw [heq, written, List.append_assoc]
    exact he.opens _
  · rw [List.getLast?_append, Option.mem_def.mp hz]
    rfl

theorem Begins.startsAt (h : Begins f n u v) : f.pattern.StartsAt u v := by
  obtain ⟨w, r, i, rfl, hf⟩ := h
  exact (fits_iff_exists_fitsWith.mpr ⟨_, hf⟩).startsAt isExplicit_pattern

/-! ### What filling does to a match -/

theorem findLast?_eq_none {q : Char} (h : q ∉ y) : Text.findLast? [q] y = none := by
  induction y with
  | nil => rfl
  | cons x y ih =>
    rw [List.mem_cons, not_or] at h
    rw [Text.findLast?, ih h.2]
    simp [h.1]

theorem findLast?_append_cons {q : Char} (h : q ∉ y) :
    Text.findLast? [q] (x ++ q :: y) = some x.length := by
  induction x with
  | nil =>
    rw [List.nil_append, Text.findLast?, findLast?_eq_none h]
    simp
  | cons c x ih => rw [List.cons_append, Text.findLast?, ih, List.length_cons]

/-- A match is left or has a block in place of its braces. -/
theorem filled_cases (hs : IsSound vs c) (h : f.pattern.Takes u m v) :
    (handlerLines? vs c (m.group 2) = none ∧ filled vs c m = m.text) ∨
      ∃ lines x b, handlerLines? vs c (m.group 2) = some lines ∧ IsBody lines ∧
        m.text = x ++ '{' :: (b ++ ['}']) ∧ (∀ y ∈ b, isBlank y = true) ∧
        filled vs c m = x ++ block lines (m.group 1) := by
  obtain ⟨h, ps, z, b, htext, he, -⟩ := exists_isEmpty_of_takes h
  cases hlines : handlerLines? vs c (m.group 2) with
  | none => exact .inl ⟨rfl, by rw [filled, hlines]⟩
  | some lines =>
    have hw : m.text = (h ++ '(' :: (ps ++ ')' :: z)) ++ '{' :: (b ++ ['}']) := by
      rw [htext, written]
      simp
    have hlast : '{' ∉ b ++ ['}'] := by
      have : '{' ∉ b := fun hmem => absurd (he.blank _ hmem) (by decide)
      simp [this]
    refine .inr ⟨lines, _, b, rfl, hs hlines, hw, he.blank, ?_⟩
    rw [filled, hlines, hw, findLast?_append_cons hlast]
    exact congrArg (· ++ block lines (m.group 1)) List.take_left

/-! ### What is read from the new text -/

/-- No filled block begins in the text. -/
def Unfilled (y : Text) : Prop := ∀ ⦃a w s r i lines⦄, y = a ++ w → w ≠ [] → IsBody lines →
  (∀ x ∈ i, Text.isIndent x = true) → w ++ s ≠ block lines i ++ r

theorem Unfilled.of_append (h : Unfilled (x ++ y)) : Unfilled y := by
  intro a w s r i lines he hw hb hi
  exact h (by rw [he, List.append_assoc]) hw hb hi

theorem unfilled_of_fitsWith {κ : List (Nat × Text)} (h : f.pattern.FitsWith u w v κ) :
    Unfilled w := by
  obtain ⟨-, i, n, h, ps, z, b, -, rfl, he⟩ := of_fitsWith h
  intro a w s r j lines hy hw hb hi
  exact he.ne_block hb hi hy hw

/-- What the new text `v'` begins with is what the old one begins with, apart from filled blocks. -/
def Alike (v v' : Text) : Prop := ∀ ⦃y r⦄, Unfilled y → v' = y ++ r → ∃ s, v = y ++ s

theorem alike_refl (v : Text) : Alike v v := fun _ r _ he => ⟨r, he⟩

theorem Alike.append (h : Alike v v') (x : Text) : Alike (x ++ v) (x ++ v') := by
  intro y r hy he
  rcases List.append_eq_append_iff.mp he with ⟨d, rfl, hd⟩ | ⟨d, rfl, rfl⟩
  · obtain ⟨s, rfl⟩ := h hy.of_append hd
    exact ⟨s, by simp⟩
  · exact ⟨d ++ v, by simp⟩

theorem alike_block (hb : IsBody lines) (hi : ∀ x ∈ i, Text.isIndent x = true) :
    Alike v (block lines i ++ v') := by
  intro y r hy he
  by_cases hne : y = []
  · exact ⟨v, by simp [hne]⟩
  · exact absurd he.symm (hy (List.nil_append y).symm hne hb hi)

theorem Alike.filled (h : Alike v v') (hs : IsSound vs c) (htakes : f.pattern.Takes u m w) :
    Alike (m.text ++ v) (filled vs c m ++ v') := by
  rcases filled_cases hs htakes with ⟨-, he⟩ | ⟨lines, x, b, -, hb, htext, -, he⟩
  · rw [he]
    exact h.append m.text
  · obtain ⟨_, _, _, _, -, hempty, -⟩ := exists_isEmpty_of_takes htakes
    rw [he, htext, List.append_assoc, List.append_assoc]
    exact (alike_block hb hempty.indent).append x

theorem alike_of_replaced (hs : IsSound vs c)
    (h : Replaced f.pattern (filled vs c) u v v') : Alike v v' := by
  induction h with
  | rest => exact alike_refl _
  | piece hgap htakes hrest ih => exact (ih.filled hs htakes).append _

/-- An empty handler of the new text is one of the old text. -/
theorem Begins.of_alike (h : Begins g n l v') (hv : Alike v v') (he : l.getLast? = u.getLast?) :
    Begins g n u v := by
  obtain ⟨w, r, i, rfl, hf⟩ := h
  obtain ⟨s, rfl⟩ := hv (unfilled_of_fitsWith hf) rfl
  exact ⟨w, s, i, rfl, fitsWith_move hf he s⟩

/-! ### No handler is left that could be filled -/

theorem getLast?_filled (hs : IsSound vs c) (h : f.pattern.Takes u m v)
    (he : l.getLast? = u.getLast?) : (l ++ filled vs c m).getLast? = (u ++ m.text).getLast? := by
  rcases filled_cases hs h with ⟨-, heq⟩ | ⟨lines, x, b, -, -, htext, -, heq⟩
  · rw [heq]
    exact Text.getLast?_append_congr m.text he
  · have hold : u ++ m.text = (u ++ (x ++ '{' :: b)) ++ ['}'] := by simp [htext]
    have hnew : l ++ filled vs c m =
        (l ++ (x ++ '{' :: '\n' :: (rows lines (m.group 1) ++ m.group 1))) ++ ['}'] := by
      simp [heq, block_eq]
    rw [hold, hnew, List.getLast?_concat, List.getLast?_concat]

/-- An empty handler that begins inside of a match of its own form ends with it and has its name. -/
theorem eq_of_begins_inside {j : Text} (h : f.pattern.Takes u m v) (htext : m.text = x ++ y)
    (hy : y ≠ []) (hf : f.pattern.FitsWith l w s [(2, n), (1, j)]) (hw : y ++ v = w ++ r) :
    y = w ∧ m.group 2 = n := by
  obtain ⟨h, ps, z, b, hm, he, -⟩ := exists_isEmpty_of_takes h
  obtain ⟨-, j', n', h', ps', z', b', hκ, rfl, he'⟩ := of_fitsWith hf
  simp only [List.cons.injEq, Prod.mk.injEq, true_and, and_true] at hκ
  obtain ⟨rfl, rfl⟩ := hκ
  exact he.ends_together he' (hm.symm.trans htext) hy hw

/-- In the new text, where one that could be filled begins inside of a replaced match, one of the
other form began. -/
theorem begins_inside (hs : IsSound vs c) (hn : (handlerLines? vs c n).isSome = true)
    (he : l.getLast? = u.getLast?) (h : f.pattern.Takes u m v) (hv : Alike v v')
    (hf : filled vs c m = x ++ y) (hy : y ≠ []) (hb : Begins g n (l ++ x) (y ++ v')) :
    g ≠ f ∧ ∃ a b, m.text ++ v = a ++ b ∧ Begins g n (u ++ a) b := by
  have hx := Text.getLast?_append_congr x he
  rcases filled_cases hs h with ⟨hnone, heq⟩ | ⟨lines, q, b, -, hbody, htext, -, heq⟩
  · -- the match was left
    have hxy : m.text = x ++ y := heq.symm.trans hf
    have hold := hb.of_alike (hv.append y) hx
    refine ⟨?_, x, y ++ v, by simp [hxy], hold⟩
    rintro rfl
    obtain ⟨w, r, j, hw, hfit⟩ := hold
    rw [← (eq_of_begins_inside h hxy hy hfit hw).2, hnone] at hn
    cases hn
  · have hindent : ∀ x ∈ m.group 1, Text.isIndent x = true := by
      obtain ⟨_, _, _, _, -, hempty, -⟩ := exists_isEmpty_of_takes h
      exact hempty.indent
    rw [heq] at hf
    rcases List.append_eq_append_iff.mp hf with ⟨a, rfl, ha⟩ | ⟨d, rfl, rfl⟩
    · -- no declaration begins in the block
      obtain ⟨w, r, j, hw, hfit⟩ := hb
      rw [← List.append_assoc] at hfit
      exact absurd hw (not_begins_in_block hbody hindent ha hy hfit)
    · -- what begins in front of the block ends there
      have hblock : Alike ('{' :: (b ++ ['}']) ++ v) (block lines (m.group 1) ++ v') :=
        alike_block hbody hindent
      have hb' : Begins g n (l ++ x) (d ++ (block lines (m.group 1) ++ v')) := by
        rwa [List.append_assoc] at hb
      have htext' : m.text = x ++ (d ++ '{' :: (b ++ ['}'])) := by simp [htext]
      have hold := hb'.of_alike (hblock.append d) hx
      refine ⟨?_, x, d ++ ('{' :: (b ++ ['}']) ++ v), by simp [htext], hold⟩
      rintro rfl
      obtain ⟨w, r, j, hw, hfit⟩ := hb'
      obtain ⟨s, hold'⟩ := hblock.append d (unfilled_of_fitsWith hfit) hw
      have hsame := (eq_of_begins_inside h htext' (by simp) hfit (by simpa using hold')).1
      have hend : ('{' :: (b ++ ['}'])) ++ r = block lines (m.group 1) ++ v' := by
        rw [← hsame, List.append_assoc] at hw
        exact (List.append_cancel_left hw).symm
      exact unfilled_of_fitsWith hfit hsame.symm (List.cons_ne_nil _ _) hbody hindent hend

/-- Filling one form of functions leaves none of them that could be filled, and of the other form
only what there was. -/
theorem seams_filled (hs : IsSound vs c) (hn : (handlerLines? vs c n).isSome = true) :
    Seams f.pattern (filled vs c) (fun l u => l.getLast? = u.getLast?) (Begins g n)
      fun u v => g ≠ f ∧ ∃ a b, v = a ++ b ∧ Begins g n (u ++ a) b where
  append s he := Text.getLast?_append_congr s he
  swap he h := getLast?_filled hs h he
  gap {l u v} he hgap hb := by
    have hb := hb.of_alike (alike_refl v) he
    exact ⟨fun hg => hgap (hg ▸ hb.startsAt), [], v, rfl, by rwa [List.append_nil]⟩
  across {l u k v v' m} he hk hno h hr hb := by
    have halike := ((alike_of_replaced hs hr).filled hs h).append k
    have hb := hb.of_alike halike he
    exact ⟨fun hg => hno (hg ▸ hb.startsAt), [], _, rfl, by rwa [List.append_nil]⟩
  inside he h hr hf hy hb := begins_inside hs hn he h (alike_of_replaced hs hr) hf hy hb

/-- What a text begins with at the handlers that are found in it. -/
theorem exists_begins_of_mem_findAll (h : m ∈ f.pattern.findAll t) :
    ∃ u v, t = u ++ v ∧ Begins f (m.group 2) u v := by
  obtain ⟨u, v, rfl, htakes⟩ := exists_takes_of_mem_findAll h
  obtain ⟨-, -, -, -, -, -, hfit⟩ := exists_isEmpty_of_takes htakes
  exact ⟨u, m.text ++ v, rfl, m.text, v, m.group 1, rfl, hfit⟩

/-- No handler is left whose name comes with lines. -/
theorem not_begins_filled (hs : IsSound vs c) (hn : (handlerLines? vs c n).isSome = true)
    (ht : emptyHandlers.foldl (fun t p => p.replaceAll (filled vs c) t) t = u ++ v) :
    ¬ Begins g n u v := by
  have hpass (f g : Form) {t u v : Text} (ht : f.pattern.replaceAll (filled vs c) t = u ++ v)
      (hb : Begins g n u v) : g ≠ f ∧ ∃ a b, t = a ++ b ∧ Begins g n a b := by
    obtain ⟨a, b, rfl, hne, a', b', rfl, hold⟩ :=
      (replaced_replaceAll neverEmpty_pattern (filled vs c) t).exists_of_seams
        (seams_filled hs hn) rfl ht hb
    exact ⟨hne, a ++ a', b', by simp, by simpa using hold⟩
  intro hb
  obtain ⟨hne, a, b, harrow, hb'⟩ := hpass .function g ht hb
  obtain ⟨hne', -⟩ := hpass .arrow g harrow hb'
  cases g
  · exact hne' rfl
  · exact hne rfl

theorem isSound_stateOf (t : Text) : IsSound (stateOf t).1 (stateOf t).2 := fun _ _ h =>
  isBody_of_handlerLines? h

/-- A name comes with lines if its role is filled here and there is a position. -/
theorem isSome_handlerLines?_iff : (handlerLines? vs c n).isSome = true ↔
    (∃ role, Role.ofName? n = some role ∧ role.isFilledInText = true) ∧
      (StateVar.index? vs).isSome = true := by
  rw [handlerLines?]
  cases Role.ofName? n with
  | none => simp
  | some role => cases role <;> simp [Role.isFilledInText, body?, advanceLines]

theorem mem_emptyHandlerNames_iff :
    n ∈ emptyHandlerNames t ↔ ∃ f : Form, ∃ m ∈ f.pattern.findAll t, m.group 2 = n := by
  rw [emptyHandlerNames, List.mem_flatMap]
  constructor
  · rintro ⟨p, hp, hn⟩
    obtain ⟨f, rfl⟩ := mem_emptyHandlers_iff.mp hp
    exact ⟨f, List.mem_map.mp hn⟩
  · rintro ⟨f, m, hm, rfl⟩
    exact ⟨f.pattern, mem_emptyHandlers_iff.mpr ⟨f, rfl⟩, List.mem_map_of_mem hm⟩

theorem fillable?_eq_none_iff : fillable? t = none ↔
    ∀ n ∈ emptyHandlerNames t, handlerLines? (stateOf t).1 (stateOf t).2 n = none := by
  rw [fillable?, List.find?_eq_none]
  simp

/-- A text with nothing to fill stays as it is. -/
theorem withHandlers_eq_self (h : fillable? t = none) : withHandlers t = t := by
  have hpass (f : Form) : f.pattern.replaceAll (filled (stateOf t).1 (stateOf t).2) t = t := by
    refine replaceAll_eq_self_of_text neverEmpty_pattern fun m hm => ?_
    rw [filled, fillable?_eq_none_iff.mp h _ (mem_emptyHandlerNames_iff.mpr ⟨f, m, hm, rfl⟩)]
  have harrow := hpass .arrow
  have hfunction := hpass .function
  have htwice : withHandlers t = Form.function.pattern.replaceAll
      (filled (stateOf t).1 (stateOf t).2)
        (Form.arrow.pattern.replaceAll (filled (stateOf t).1 (stateOf t).2) t) := rfl
  rw [htwice, harrow, hfunction]

/-- Nothing is left to fill. The state is guessed anew from the new text, but names that could be
filled come with no other roles than before. -/
theorem fillable?_withHandlers_eq_none (t : Text) : fillable? (withHandlers t) = none := by
  by_cases hindex : (StateVar.index? (stateOf t).1).isSome = true
  · refine fillable?_eq_none_iff.mpr fun n hn => ?_
    by_contra hsome
    obtain ⟨hrole, -⟩ := isSome_handlerLines?_iff.mp (Option.isSome_iff_ne_none.mpr hsome)
    obtain ⟨f, m, hm, rfl⟩ := mem_emptyHandlerNames_iff.mp hn
    obtain ⟨u, v, ht, hb⟩ := exists_begins_of_mem_findAll hm
    exact not_begins_filled (isSound_stateOf t) (isSome_handlerLines?_iff.mpr ⟨hrole, hindex⟩) ht hb
  · have hnone : fillable? t = none := fillable?_eq_none_iff.mpr fun n _ => by
      by_contra hsome
      exact hindex (isSome_handlerLines?_iff.mp (Option.isSome_iff_ne_none.mpr hsome)).2
    rw [withHandlers_eq_self hnone, hnone]

end SnippetGate.Repair
