import SnippetGate.Proofs.Pattern.Replaced
import SnippetGate.Proofs.Repair.Typing

/-!
# Rewrites that leave nothing to rewrite

A call of `setAnswer` and an `else` without an end are replaced by texts in which neither begins,
and what stands before such a text does not go on with it.
-/

namespace SnippetGate

open Pattern

namespace Signature

variable {m : Match} {a b k l r u v v' w : Text}

/-! ### Calls of `setAnswer` -/

/-- A call of `setAnswer` without what stands before it. -/
def BeginsCall (v : Text) : Prop :=
  ∃ b r, v = "setAnswer".toList ++ (b ++ '(' :: r) ∧ ∀ x ∈ b, isBlank x = true

/-- Behind the text a name can begin. -/
def IsFresh (u : Text) : Prop := ∀ x ∈ u.getLast?, (isNameChar x || x == '.') = false

theorem fits_setAnswerCall : setAnswerCall.Fits u w v ↔ IsFresh u ∧
    ∃ b, w = "setAnswer".toList ++ (b ++ ['(']) ∧ ∀ x ∈ b, isBlank x = true := by
  constructor
  · rintro ⟨_, _, rfl, ⟨rfl, hu⟩, _, _, rfl, hword, b, _, rfl, hb, x, rfl, hx⟩
    obtain rfl := fits_text.mp hword
    obtain rfl : x = '(' := by simpa using hx
    exact ⟨hu, b, rfl, hb⟩
  · rintro ⟨hu, b, rfl, hb⟩
    exact ⟨[], _, rfl, ⟨rfl, hu⟩, _, _, rfl, fits_text.mpr rfl, b, _, rfl, hb, '(', rfl, rfl⟩

theorem startsAt_setAnswerCall : setAnswerCall.StartsAt u v ↔ IsFresh u ∧ BeginsCall v := by
  rw [startsAt_iff rfl]
  constructor
  · rintro ⟨w, r, rfl, hf⟩
    obtain ⟨hu, b, rfl, hb⟩ := fits_setAnswerCall.mp hf
    exact ⟨hu, b, r, by simp, hb⟩
  · rintro ⟨hu, b, r, rfl, hb⟩
    exact ⟨_, r, by simp, fits_setAnswerCall.mpr ⟨hu, b, rfl, hb⟩⟩

/-- A call that begins before a name ends before it. -/
theorem BeginsCall.of_append {z : Char} (h : BeginsCall (k ++ z :: r)) (hk : k ≠ [])
    (hfresh : IsFresh k) (hz : isNameChar z = true) (s : Text) : BeginsCall (k ++ s) := by
  obtain ⟨b, q, he, hb⟩ := h
  have hsplit : "setAnswer".toList ++ ((b ++ ['(']) ++ q) = k ++ z :: r := by simpa using he.symm
  rcases Text.cases_of_append_eq hsplit with ⟨d, -, hword, -⟩ | ⟨c, d, hd, -, hx, hrest⟩ |
    ⟨c, rfl, -⟩
  · -- the call breaks off within its name
    exfalso
    obtain ⟨y, hy⟩ := Option.isSome_iff_exists.mp (List.getLast?_isSome.mpr hk)
    have hmem : y ∈ "setAnswer".toList :=
      hword ▸ List.mem_append_left d (List.mem_of_getLast? hy)
    have hname : ∀ x ∈ "setAnswer".toList, isNameChar x = true := by decide
    have := hfresh y hy
    rw [hname y hmem] at this
    cases this
  · -- the name would stand among the blanks
    exfalso
    obtain ⟨y, d, rfl⟩ := List.exists_cons_of_ne_nil hd
    obtain ⟨rfl, -⟩ := List.cons.inj hrest
    have hmem : z ∈ b ++ ['('] := hx ▸ List.mem_append_right c List.mem_cons_self
    rcases List.mem_append.mp hmem with hm | hm
    · rw [not_isNameChar_of_isBlank (hb z hm)] at hz
      cases hz
    · obtain rfl := List.mem_singleton.mp hm
      exact absurd hz (by decide)
  · exact ⟨b, c ++ s, by simp, hb⟩

/-- No call begins inside of the text that calls are replaced by. -/
theorem clash_setUserAnswer : ∀ b ∈ "setUserAnswer(".toList.tails, b ≠ [] →
    Text.Clash b "setAnswer".toList := by
  decide

/-- When all calls are replaced none is left. -/
theorem occursIn_setAnswerCall (t : Text) :
    setAnswerCall.occursIn (setAnswerCall.replaceAll (fun _ => "setUserAnswer(".toList) t) =
      false := by
  refine occursIn_replaceAll (E := fun l u => l.getLast? = u.getLast?)
    (IsFull.neverEmpty rfl (.inr (.inl (.inl trivial)))) rfl ⟨?_, ?_, ?_, ?_, ?_⟩
  · intro l u s he
    rw [List.getLast?_append, List.getLast?_append, he]
  · intro l u v m _ h
    obtain ⟨-, b, htext, -⟩ := fits_setAnswerCall.mp (h.fits rfl)
    rw [htext, ← List.append_assoc, ← List.append_assoc, List.getLast?_concat]
    exact List.getLast?_append_of_ne_nil l (List.cons_ne_nil _ _)
  · intro l u v he hgap h
    rw [startsAt_setAnswerCall] at hgap h
    exact hgap (h.imp_left fun hl => by rwa [IsFresh, ← he])
  · intro l u k v v' m he hk hno h _ hcall
    rw [startsAt_setAnswerCall] at hno hcall
    have hfresh := (fits_setAnswerCall.mp (h.fits rfl)).1
    refine hno ⟨by rw [IsFresh, ← he]; exact hcall.1, ?_⟩
    refine hcall.2.of_append (z := 's') hk ?_ (by decide) _
    rwa [IsFresh, List.getLast?_append_of_ne_nil u hk] at hfresh
  · intro l u v v' a b m _ _ _ hf hb hcall
    obtain ⟨-, c, r, hr, -⟩ := startsAt_setAnswerCall.mp hcall
    exact (clash_setUserAnswer b ((List.mem_tails ..).mpr ⟨a, hf.symm⟩) hb).append_ne _ _ hr

/-! ### An `else` without an end -/

/-- What the pieces consist of: behind the brace comes the word, and the next brace ends them. -/
theorem exists_of_fits_emptyElse (h : emptyElse.Fits u w v) :
    ∃ b q, w = '}' :: (b ++ 'e' :: (q ++ ['}', ';'])) ∧ (∀ x ∈ b, isBlank x = true) ∧ '}' ∉ q := by
  obtain ⟨_, _, rfl, ⟨x, rfl, hx⟩, b, _, rfl, hb, _, _, rfl, hword, c, _, rfl, hc, _, _, rfl,
    ⟨y, rfl, hy⟩, i, _, rfl, hi, _, _, rfl, ⟨z, rfl, hz⟩, j, _, rfl, hj, hend⟩ := h
  obtain rfl := fits_text.mp hword
  obtain rfl := fits_text.mp hend
  obtain rfl : x = '}' := by simpa using hx
  obtain rfl : y = '{' := by simpa using hy
  obtain rfl : z = '\n' := by simpa using hz
  refine ⟨b, "lse".toList ++ (c ++ '{' :: (i ++ '\n' :: j)), by simp, hb, ?_⟩
  have hc' : '}' ∉ c := fun h => absurd (hc _ h) (by decide)
  have hi' : '}' ∉ i := fun h => absurd (hi _ h) (by decide)
  have hj' : '}' ∉ j := fun h => absurd (hj _ h) (by decide)
  simp [hc', hi', hj']

/-- The pieces do not depend on what stands beside them. -/
theorem startsAt_emptyElse :
    emptyElse.StartsAt u v ↔ ∃ w r, v = w ++ r ∧ emptyElse.Fits [] w [] :=
  startsAt_iff rfl

theorem eq_of_braceEnd {d : Text} (h : ['}', ';'] = k ++ '}' :: d) : d = [';'] := by
  cases k with
  | nil => exact (List.cons.inj h).2.symm
  | cons x k =>
    have hmem : '}' ∈ [';'] := (List.cons.inj h).2 ▸ List.mem_append_right k List.mem_cons_self
    exact absurd hmem (by decide)

/-- A piece that begins before the new text of another does not need it. Only its last brace could
be the first character of that. -/
theorem startsAt_emptyElse_of_before {g : Text} (hk : k ≠ [])
    (h : emptyElse.StartsAt l (k ++ '}' :: '\n' :: g)) : emptyElse.StartsAt u (k ++ v) := by
  obtain ⟨w, r, he, hw⟩ := startsAt_emptyElse.mp h
  rw [startsAt_emptyElse]
  rcases List.append_eq_append_iff.mp he.symm with ⟨c, rfl, -⟩ | ⟨d, hd, hrest⟩
  · exact ⟨w, _, List.append_assoc .., hw⟩
  · obtain ⟨b, q, rfl, hb, hq⟩ := exists_of_fits_emptyElse hw
    cases d with
    | nil =>
      rw [List.append_nil] at hd
      exact ⟨_, _, by rw [hd], hw⟩
    | cons y d =>
      exfalso
      obtain ⟨z, k, rfl⟩ := List.exists_cons_of_ne_nil hk
      rw [List.cons_append] at hrest
      obtain ⟨rfl, htail⟩ := List.cons.inj hrest
      have hbraceless : '}' ∉ b ++ 'e' :: q := by
        have hb' : '}' ∉ b := fun h => absurd (hb _ h) (by decide)
        simp [hb', hq]
      obtain ⟨k', -, hend⟩ := Text.exists_of_append_cons_eq (w := b ++ 'e' :: q)
        (r := ['}', ';']) (by simpa using (List.cons.inj hd).2.symm) hbraceless
      obtain rfl := eq_of_braceEnd hend
      exact absurd (List.cons.inj htail).1 (by decide)

/-- No piece begins inside of the new text of another. -/
theorem not_startsAt_emptyElse_inside {g : Text} (hg : ∀ x ∈ g, isBlank x = true)
    (hf : '}' :: (g ++ ['}', ';']) = a ++ b) (hb : b ≠ []) : ¬ emptyElse.StartsAt l (b ++ v) := by
  intro h
  obtain ⟨w, r, he, hw⟩ := startsAt_emptyElse.mp h
  obtain ⟨c, q, rfl, hc, -⟩ := exists_of_fits_emptyElse hw
  obtain ⟨y, b, rfl⟩ := List.exists_cons_of_ne_nil hb
  rw [List.cons_append, List.cons_append] at he
  obtain ⟨rfl, hrest⟩ := List.cons.inj he
  replace hrest : b ++ v = c ++ 'e' :: (q ++ '}' :: ';' :: r) := by simpa using hrest
  cases a with
  | nil =>
    have hb : g ++ '}' :: (';' :: v) = b ++ v := by
      rw [← (List.cons.inj hf).2]
      simp
    exact absurd (Text.eq_of_first_of_other hg hc (by decide) (by decide) (hb.trans hrest)).2.1
      (by decide)
  | cons x a =>
    have hbraceless : '}' ∉ g := fun h => absurd (hg _ h) (by decide)
    obtain ⟨k, -, hend⟩ := Text.exists_of_append_cons_eq (w := g) (r := ['}', ';'])
      (List.cons.inj hf).2.symm hbraceless
    obtain rfl := eq_of_braceEnd hend
    exact absurd (Text.eq_of_first_of_other (a := []) nofun hc (by decide) (by decide) hrest).2.1
      (by decide)

/-- When each has its end none without one is left. -/
theorem occursIn_emptyElse (t : Text) :
    emptyElse.occursIn (emptyElse.replaceAll
      (fun m => "\x7d\n".toList ++ m.group 1 ++ "\x7d;".toList) t) = false := by
  refine occursIn_replaceAll (E := fun _ _ => True) (IsFull.neverEmpty rfl (.inl trivial)) trivial
    ⟨fun _ _ => trivial, fun _ _ => trivial, ?_, ?_, ?_⟩
  · intro l u v _ hgap h
    exact hgap (startsAt_emptyElse.mpr (startsAt_emptyElse.mp h))
  · intro l u k v v' m _ hk hno _ _ h
    have hbefore : emptyElse.StartsAt l (k ++ '}' :: '\n' :: (m.group 1 ++ '}' :: ';' :: v')) := by
      simpa using h
    exact hno (startsAt_emptyElse_of_before hk hbefore)
  · intro l u v v' a b m _ hm _ hf hb h
    have hg : ∀ x ∈ '\n' :: m.group 1, isBlank x = true :=
      List.forall_mem_cons.mpr
        ⟨rfl, fun x hx => isBlank_of_isIndent ((emptyElse_parts hm.mem_ends).2 x hx)⟩
    exact not_startsAt_emptyElse_inside hg (by simpa using hf) hb h

end Signature

end SnippetGate
