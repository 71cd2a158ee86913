import SnippetGate.Proofs.Repair.EmptyBody

/-!
# What filling keeps

Nothing of a text changes but the braces at the ends of some empty handlers, in place of which
filled blocks stand. The functions are filled in the text that comes of the arrow functions, but what
is filled there was an empty function before, since none begins in a filled block or holds one.
-/

namespace SnippetGate.Repair

open Pattern Signature Handler Handler.Form

variable {f : Form} {vs : List StateVar} {c t u v v' l n r s w x y i : Text} {m : Match}
  {lines : List Text} {κ : List (Nat × Text)}

/-- The text `v`, which stands behind `u`, becomes `v'` when in some of the matches of the patterns
for empty handlers the braces at the end are replaced by the block that the role of the handler asks
for. -/
inductive Fills (vs : List StateVar) (c : Text) : Text → Text → Text → Prop where
  /-- The text ends. -/
  | done {u : Text} : Fills vs c u [] []
  /-- A character is kept. -/
  | keep {u v v' : Text} {x : Char} (hrest : Fills vs c (u ++ [x]) v v') :
    Fills vs c u (x :: v) (x :: v')
  /-- The braces at the end of the match `m` are replaced. -/
  | fill {p : Pattern} {u h b v v' : Text} {m : Match} {role : Role} {lines : List Text}
    (hp : p ∈ emptyHandlers) (htakes : p.Takes u m v) (htext : m.text = h ++ '{' :: (b ++ ['}']))
    (hblank : ∀ x ∈ b, isBlank x = true) (hname : Role.ofName? (m.group 2) = some role)
    (hrole : role = .submit ∨ role = .advance) (hlines : body? role vs c = some lines)
    (hne : lines ≠ []) (hrest : Fills vs c (u ++ m.text) v v') :
    Fills vs c (u ++ h) ('{' :: (b ++ '}' :: v)) (block lines (m.group 1) ++ v')

theorem handlerLines?_eq_some_iff : handlerLines? vs c n = some lines ↔ ∃ role,
    Role.ofName? n = some role ∧ (role = .submit ∨ role = .advance) ∧
      body? role vs c = some lines := by
  rw [handlerLines?]
  cases Role.ofName? n with
  | none => simp
  | some role => cases role <;> simp [Role.isFilledInText]

/-- A match of the new text is one of the old text. -/
theorem exists_takes_of_fitsWith (hw : f.pattern.FitsWith l w r [(2, n), (1, i)])
    (he : l.getLast? = u.getLast?) (s : Text) :
    ∃ m, m.text = w ∧ m.group 1 = i ∧ m.group 2 = n ∧ f.pattern.Takes u m s := by
  have hfit := fitsWith_move hw he s
  have hb : Begins f n u (w ++ s) := ⟨w, s, i, rfl, hfit⟩
  obtain ⟨m, q, hq, htakes⟩ := hb.startsAt.exists_takes
  obtain ⟨h, ps, z, b, htext, hm, -⟩ := exists_isEmpty_of_takes htakes
  have hne : m.text ≠ [] := by simp [htext, written]
  obtain ⟨rfl, hname⟩ := eq_of_begins_inside htakes (List.nil_append _).symm hne hfit hq.symm
  obtain rfl := List.append_cancel_left hq
  obtain ⟨-, i', n', h', ps', z', b', hκ, hw', he'⟩ := of_fitsWith hfit
  simp only [List.cons.injEq, Prod.mk.injEq, true_and, and_true] at hκ
  have hindent : m.group 1 = i := by
    rw [← hm.takeWhile_written, ← htext, hw', he'.takeWhile_written, hκ.2]
  exact ⟨m, rfl, hindent, hname, htakes⟩

namespace Fills

theorem append (h : Fills vs c (u ++ x) v v') : Fills vs c u (x ++ v) (x ++ v') := by
  induction x generalizing u with
  | nil => rwa [List.append_nil] at h
  | cons y x ih =>
    refine .keep (ih ?_)
    rwa [List.append_assoc]

theorem refl (u v : Text) : Fills vs c u v v := by
  have h : Fills vs c u (v ++ []) (v ++ []) := append .done
  rwa [List.append_nil] at h

/-- A match is filled as its role asks for. -/
theorem of_takes (hs : IsSound vs c) (htakes : f.pattern.Takes u m v)
    (hrest : Fills vs c (u ++ m.text) v v') :
    Fills vs c u (m.text ++ v) (filled vs c m ++ v') := by
  rcases filled_cases hs htakes with ⟨-, heq⟩ | ⟨lines, x, b, hlines, hb, htext, hblank, heq⟩
  · rw [heq]
    exact hrest.append
  · obtain ⟨_, _, hne, -⟩ := hb.first
    obtain ⟨role, hname, hrole, hbody⟩ := handlerLines?_eq_some_iff.mp hlines
    have hfill := Fills.fill (mem_emptyHandlers_iff.mpr ⟨f, rfl⟩) htakes htext hblank hname hrole
      hbody (by simp [hne]) hrest
    rw [heq, htext]
    simpa using hfill.append

/-- What is filled in is a block. -/
theorem cases_block (hs : IsSound vs c) (h : Fills vs c u v v') :
    (v = [] ∧ v' = []) ∨
      (∃ x q q', v = x :: q ∧ v' = x :: q' ∧ Fills vs c (u ++ [x]) q q') ∨
      ∃ lines i y q q', IsBody lines ∧ (∀ x ∈ i, Text.isIndent x = true) ∧ v = y ++ q ∧
        v' = block lines i ++ q' ∧ (∀ l, (l ++ block lines i).getLast? = (u ++ y).getLast?) ∧
        Fills vs c (u ++ y) q q' ∧
        ∀ z, Fills vs c (u ++ y) q z → Fills vs c u v (block lines i ++ z) := by
  cases h with
  | done => exact .inl ⟨rfl, rfl⟩
  | keep hrest => exact .inr (.inl ⟨_, _, _, rfl, rfl, hrest⟩)
  | @fill p u h b v v' m role lines hp htakes htext hblank hname hrole hlines hne hrest =>
    obtain ⟨f, rfl⟩ := mem_emptyHandlers_iff.mp hp
    obtain ⟨_, _, _, _, -, hempty, -⟩ := exists_isEmpty_of_takes htakes
    have hbody := hs (handlerLines?_eq_some_iff.mpr ⟨role, hname, hrole, hlines⟩)
    have hu : u ++ h ++ '{' :: (b ++ ['}']) = u ++ m.text := by simp [htext]
    refine .inr (.inr ⟨lines, m.group 1, '{' :: (b ++ ['}']), v, v', hbody, hempty.indent, by simp,
      rfl, fun l => ?_, by rwa [hu], fun z hz => ?_⟩)
    · have hold : u ++ h ++ '{' :: (b ++ ['}']) = (u ++ h ++ '{' :: b) ++ ['}'] := by simp
      have hnew : l ++ block lines (m.group 1) =
          (l ++ '{' :: '\n' :: (rows lines (m.group 1) ++ m.group 1)) ++ ['}'] := by
        simp [block_eq]
      rw [hold, hnew, List.getLast?_concat, List.getLast?_concat]
    · exact .fill hp htakes htext hblank hname hrole hlines hne (hu ▸ hz)

/-- What no filled block begins in is kept. -/
theorem exists_of_append (hs : IsSound vs c) (h : Fills vs c u v (y ++ r)) (hy : Unfilled y) :
    ∃ s, v = y ++ s ∧ Fills vs c (u ++ y) s r := by
  induction y generalizing u v with
  | nil => exact ⟨v, rfl, by rwa [List.append_nil]⟩
  | cons x y ih =>
    rcases h.cases_block hs with ⟨-, hnil⟩ | ⟨x', q, q', rfl, hx, hrest⟩ |
      ⟨lines, i, k, q, q', hb, hi, -, hblock, -⟩
    · cases hnil
    · obtain ⟨rfl, rfl⟩ := List.cons.inj hx
      obtain ⟨s, rfl, hs'⟩ := ih hrest (Unfilled.of_append (x := [x]) hy)
      exact ⟨s, rfl, by simpa using hs'⟩
    · exact absurd hblock (hy (List.nil_append _).symm (List.cons_ne_nil x y) hb hi)

/-- Where an empty handler begins in the new text, a filled block is over. -/
theorem exists_of_block (hb : IsBody lines) (hi : ∀ y ∈ i, Text.isIndent y = true)
    (hw : f.pattern.FitsWith (l ++ x) w r κ) (h : x ++ (w ++ r) = block lines i ++ v) :
    ∃ d, x = block lines i ++ d ∧ v = d ++ (w ++ r) := by
  rcases List.append_eq_append_iff.mp h with ⟨d, hd, hrest⟩ | ⟨d, rfl, rfl⟩
  · by_cases hne : d = []
    · subst hne
      exact ⟨[], by simpa using hd.symm, by simpa using hrest.symm⟩
    · exact absurd hrest.symm (not_begins_in_block hb hi hd hne hw)
  · exact ⟨d, rfl, rfl⟩

/-- Where an empty handler begins in the new text, one begins in the old text. -/
theorem exists_split (hs : IsSound vs c) (h : Fills vs c u v v') (hv : v' = x ++ (w ++ r))
    (he : l.getLast? = u.getLast?) (hw : f.pattern.FitsWith (l ++ x) w r κ) :
    ∃ y s, v = y ++ (w ++ s) ∧ (l ++ x).getLast? = (u ++ y).getLast? ∧
      Fills vs c (u ++ (y ++ w)) s r ∧
      ∀ z, Fills vs c (u ++ y) (w ++ s) z → Fills vs c u v (x ++ z) := by
  induction hn : x.length using Nat.strong_induction_on generalizing u v v' l x with
  | _ n ih =>
    subst hv hn
    cases x with
    | nil =>
      rw [List.nil_append] at h
      obtain ⟨s, rfl, hrest⟩ := h.exists_of_append hs (unfilled_of_fitsWith hw)
      exact ⟨[], s, rfl, by simpa using he, hrest, fun z hz => by simpa using hz⟩
    | cons a x =>
      rcases h.cases_block hs with ⟨-, hnil⟩ | ⟨a', q, q', rfl, hx, hrest⟩ |
        ⟨lines, i, k, q, q', hb, hi, rfl, hblock, hlast, hrest, hfill⟩
      · cases hnil
      · obtain ⟨rfl, rfl⟩ := List.cons.inj hx
        have hw' : f.pattern.FitsWith (l ++ [a] ++ x) w r κ := by simpa using hw
        obtain ⟨y, s, rfl, hsame, hafter, hfill⟩ := ih x.length (Nat.lt_succ_self _) hrest rfl
          (Text.getLast?_append_congr [a] he) hw' rfl
        refine ⟨a :: y, s, rfl, by simpa using hsame, by simpa using hafter, fun z hz => ?_⟩
        exact .keep (hfill z (by simpa using hz))
      · obtain ⟨d, hx, rfl⟩ := exists_of_block hb hi hw hblock
        rw [hx] at hw ⊢
        rw [← List.append_assoc] at hw
        have hshort : d.length < (a :: x).length := by
          rw [hx, block_eq]
          simp
          omega
        obtain ⟨y, s, rfl, hsame, hafter, hfill'⟩ := ih d.length hshort hrest rfl (hlast l) hw rfl
        refine ⟨k ++ y, s, by simp, by simpa using hsame, by simpa using hafter, fun z hz => ?_⟩
        rw [List.append_assoc]
        exact hfill (d ++ z) (hfill' z (by simpa using hz))

/-- What is filled after some blocks were filled is filled in the old text as well. -/
theorem of_replaced (hs : IsSound vs c) (hr : Replaced f.pattern (filled vs c) l v' w)
    (h : Fills vs c u v v') (he : l.getLast? = u.getLast?) : Fills vs c u v w := by
  induction hr generalizing u v with
  | rest => exact h
  | @piece l x s w m hgap htakes hrest ih =>
    obtain ⟨-, -, -, -, -, -, hfit⟩ := exists_isEmpty_of_takes htakes
    obtain ⟨y, q, rfl, hsame, hafter, hfill⟩ := h.exists_split hs rfl he hfit
    obtain ⟨m', htext, h₁, h₂, htakes'⟩ := exists_takes_of_fitsWith hfit hsame q
    have hlast : (l ++ (x ++ m.text)).getLast? = (u ++ (y ++ m.text)).getLast? := by
      rw [← List.append_assoc, ← List.append_assoc]
      exact Text.getLast?_append_congr m.text hsame
    have hnext := ih hafter hlast
    have heq : filled vs c m' = filled vs c m := by rw [filled, filled, htext, h₁, h₂]
    refine hfill _ ?_
    rw [← heq, ← htext]
    refine of_takes hs htakes' ?_
    rwa [htext, List.append_assoc]

end Fills

/-- Filling leaves nothing to fill, so filling once more changes nothing. And it changes nothing of
the text but the braces of handlers that are filled by their role. -/
theorem withHandlers_spec (t : Text) : fillable? (withHandlers t) = none ∧
    withHandlers (withHandlers t) = withHandlers t ∧
      Fills (stateOf t).1 (stateOf t).2 [] t (withHandlers t) := by
  have hnone := fillable?_withHandlers_eq_none t
  refine ⟨hnone, withHandlers_eq_self hnone, ?_⟩
  have hs := isSound_stateOf t
  have hpass (f : Form) {v : Text} (h : Fills (stateOf t).1 (stateOf t).2 [] t v) :
      Fills (stateOf t).1 (stateOf t).2 [] t
        (f.pattern.replaceAll (filled (stateOf t).1 (stateOf t).2) v) :=
    h.of_replaced hs (replaced_replaceAll neverEmpty_pattern _ v) rfl
  exact hpass .function (hpass .arrow (.refl [] t))

end SnippetGate.Repair
