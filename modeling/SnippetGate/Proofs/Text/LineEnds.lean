import SnippetGate.Proofs.Text.Basic

/-!
# Two spellings of line ends

A text can be written with a carriage return before each of its newlines. Where the longer text is
divided, the shorter one is divided too, or else the division goes through a line end.
-/

namespace SnippetGate.Text

variable {t u v : Text} {x : Char}

/-- The text with a carriage return before each newline. -/
def crlf : Text → Text
  | [] => []
  | x :: t => if x = '\n' then '\r' :: '\n' :: crlf t else x :: crlf t

@[simp] theorem crlf_nil : crlf [] = [] := rfl

@[simp] theorem crlf_newline (t : Text) : crlf ('\n' :: t) = '\r' :: '\n' :: crlf t := rfl

theorem crlf_cons (h : x ≠ '\n') (t : Text) : crlf (x :: t) = x :: crlf t := if_neg h

theorem crlf_append (t u : Text) : crlf (t ++ u) = crlf t ++ crlf u := by
  induction t with
  | nil => rfl
  | cons x t ih =>
    by_cases h : x = '\n'
    · subst h
      simp [ih]
    · simp [crlf_cons h, ih]

theorem crlf_concat (h : x ≠ '\n') (t : Text) : crlf (t ++ [x]) = crlf t ++ [x] := by
  rw [crlf_append, crlf_cons h, crlf_nil]

theorem crlf_concat_newline (t : Text) : crlf (t ++ ['\n']) = crlf t ++ ['\r', '\n'] :=
  crlf_append t ['\n']

@[simp] theorem crlf_eq_nil : crlf t = [] ↔ t = [] := by
  cases t with
  | nil => simp
  | cons x t => by_cases h : x = '\n' <;> simp [crlf, h]

/-- A text on one line has one spelling. -/
theorem crlf_eq_self (h : '\n' ∉ t) : crlf t = t := by
  induction t with
  | nil => rfl
  | cons x t ih =>
    obtain ⟨hx, ht⟩ := not_or.mp (mt List.mem_cons.mpr h)
    rw [crlf_cons (Ne.symm hx), ih ht]

/-- Only carriage returns are added. -/
theorem mem_crlf (h : x ≠ '\r') : x ∈ crlf t ↔ x ∈ t := by
  induction t with
  | nil => rfl
  | cons y t ih =>
    by_cases hy : y = '\n'
    · subst hy
      simp [ih, h]
    · simp [crlf_cons hy, ih]

theorem length_le_length_crlf (t : Text) : t.length ≤ (crlf t).length := by
  induction t with
  | nil => exact Nat.le_refl _
  | cons x t ih =>
    by_cases h : x = '\n'
    · subst h
      simp only [crlf_newline, List.length_cons]
      omega
    · simpa [crlf_cons h] using ih

theorem head?_crlf (t : Text) :
    (crlf t).head? = t.head?.map fun x => if x = '\n' then '\r' else x := by
  cases t with
  | nil => rfl
  | cons x t => by_cases h : x = '\n' <;> simp [crlf, h]

theorem head?_crlf_eq_iff (hn : x ≠ '\n') (hr : x ≠ '\r') :
    (crlf t).head? = some x ↔ t.head? = some x := by
  rw [head?_crlf]
  cases t with
  | nil => simp
  | cons y t =>
    by_cases h : y = '\n'
    · subst h
      simp [hn.symm, hr.symm]
    · simp [h]

/-- The longer text does not begin with the end of a line end. -/
theorem head?_crlf_ne_newline (t : Text) : (crlf t).head? ≠ some '\n' := by
  rw [head?_crlf]
  cases t with
  | nil => simp
  | cons x t => by_cases h : x = '\n' <;> simp [h]

theorem crlf_injective : Function.Injective crlf := by
  intro t u h
  induction t generalizing u with
  | nil => exact (crlf_eq_nil.mp h.symm).symm
  | cons x t ih =>
    cases u with
    | nil => exact crlf_eq_nil.mp h
    | cons y u =>
      by_cases hx : x = '\n' <;> by_cases hy : y = '\n'
      · subst hx hy
        rw [ih (by simpa using h)]
      · subst hx
        rw [crlf_newline, crlf_cons hy] at h
        exact absurd (by rw [← (List.cons.inj h).2]; rfl) (head?_crlf_ne_newline u)
      · subst hy
        rw [crlf_newline, crlf_cons hx] at h
        exact absurd (by rw [(List.cons.inj h).2]; rfl) (head?_crlf_ne_newline t)
      · rw [crlf_cons hx, crlf_cons hy] at h
        obtain ⟨rfl, ht⟩ := List.cons.inj h
        rw [ih ht]

@[simp] theorem getLast?_crlf (t : Text) : (crlf t).getLast? = t.getLast? := by
  induction t using List.reverseRecOn with
  | nil => rfl
  | append_singleton t x ih =>
    by_cases h : x = '\n'
    · subst h
      rw [crlf_concat_newline, List.getLast?_concat, List.append_cons, List.getLast?_concat]
    · rw [crlf_concat h, List.getLast?_concat, List.getLast?_concat]

/-- The longer text is divided like the shorter one, or within a line end. -/
theorem exists_of_crlf_eq (h : crlf t = u ++ v) :
    (∃ a b, t = a ++ b ∧ u = crlf a ∧ v = crlf b) ∨
      ∃ a b, t = a ++ '\n' :: b ∧ u = crlf a ++ ['\r'] ∧ v = '\n' :: crlf b := by
  induction t generalizing u with
  | nil =>
    obtain ⟨rfl, rfl⟩ := List.append_eq_nil_iff.mp h.symm
    exact .inl ⟨[], [], rfl, rfl, rfl⟩
  | cons x t ih =>
    cases u with
    | nil => exact .inl ⟨[], x :: t, rfl, rfl, h.symm⟩
    | cons y u =>
      by_cases hx : x = '\n'
      · subst hx
        rw [crlf_newline, List.cons_append] at h
        obtain ⟨rfl, ht⟩ := List.cons.inj h
        cases u with
        -- the text is divided between the two characters of the line end
        | nil => exact .inr ⟨[], t, rfl, rfl, ht.symm⟩
        | cons z u =>
          rw [List.cons_append] at ht
          obtain ⟨rfl, hrest⟩ := List.cons.inj ht
          rcases ih hrest with ⟨a, b, rfl, rfl, rfl⟩ | ⟨a, b, rfl, rfl, rfl⟩
          · exact .inl ⟨'\n' :: a, b, rfl, rfl, rfl⟩
          · exact .inr ⟨'\n' :: a, b, rfl, rfl, rfl⟩
      · rw [crlf_cons hx, List.cons_append] at h
        obtain ⟨rfl, ht⟩ := List.cons.inj h
        rcases ih ht with ⟨a, b, rfl, rfl, rfl⟩ | ⟨a, b, rfl, rfl, rfl⟩
        · exact .inl ⟨x :: a, b, rfl, (crlf_cons hx a).symm, rfl⟩
        · exact .inr ⟨x :: a, b, rfl, by rw [crlf_cons hx]; rfl, rfl⟩

/-- A newline stands behind a carriage return. -/
theorem getLast?_of_crlf_eq (h : crlf t = u ++ '\n' :: v) : u.getLast? = some '\r' := by
  rcases exists_of_crlf_eq h with ⟨-, b, -, -, hb⟩ | ⟨a, b, -, rfl, -⟩
  · exact absurd (by rw [← hb]; rfl) (head?_crlf_ne_newline b)
  · rw [List.getLast?_concat]

/-- Up to the first line end both spellings are the same. -/
theorem take_crlf {n : Nat} (h : '\n' ∉ t.take n) : (crlf t).take n = crlf (t.take n) := by
  induction n generalizing t with
  | zero => rfl
  | succ n ih =>
    cases t with
    | nil => rfl
    | cons x t =>
      rw [List.take_succ_cons] at h ⊢
      obtain ⟨hx, ht⟩ := not_or.mp (mt List.mem_cons.mpr h)
      rw [crlf_cons (Ne.symm hx), crlf_cons (Ne.symm hx), List.take_succ_cons, ih ht]

/-! ### Back to the shorter text -/

theorem universalNewlines_crlf (h : '\r' ∉ t) : universalNewlines (crlf t) = t := by
  induction t with
  | nil => rfl
  | cons x t ih =>
    obtain ⟨hx, ht⟩ := not_or.mp (mt List.mem_cons.mpr h)
    by_cases hn : x = '\n'
    · subst hn
      rw [crlf_newline, universalNewlines, ih ht]
    · have hcons := universalNewlines_cons (t := crlf t) fun _ hr => absurd hr.symm hx
      rw [crlf_cons hn, hcons, if_neg (Ne.symm hx), ih ht]

theorem replace_crlf (h : '\r' ∉ t) : (crlf t).replace ['\r', '\n'] ['\n'] = t := by
  induction t with
  | nil => rfl
  | cons x t ih =>
    obtain ⟨hx, ht⟩ := not_or.mp (mt List.mem_cons.mpr h)
    have ih : replaceFrom ['\r', '\n'] ['\n'] 0 (crlf t) = t := ih ht
    by_cases hn : x = '\n'
    · subst hn
      simp [replace, replaceFrom, ih]
    · simp [replace, crlf_cons hn, replaceFrom, hx, ih]

/-- Replacing changes nothing before the first character of what is replaced. -/
theorem take_replace {y : Char} {k new : Text} {n : Nat} (h : y ∉ t.take n) :
    (t.replace (y :: k) new).take n = t.take n := by
  induction n generalizing t with
  | zero => rfl
  | succ n ih =>
    cases t with
    | nil => rfl
    | cons x t =>
      rw [List.take_succ_cons] at h ⊢
      obtain ⟨hx, ht⟩ := not_or.mp (mt List.mem_cons.mpr h)
      have ih : (replaceFrom (y :: k) new 0 t).take n = t.take n := ih ht
      have hno : ¬ (y :: k).isPrefixOf (x :: t) = true := by simp [hx]
      rw [replace, replaceFrom, if_neg hno, List.take_succ_cons, ih]

theorem replace_of_not_mem (h : '\r' ∉ t) : t.replace ['\r', '\n'] ['\n'] = t := by
  induction t with
  | nil => rfl
  | cons x t ih =>
    obtain ⟨hx, ht⟩ := not_or.mp (mt List.mem_cons.mpr h)
    have ih : replaceFrom ['\r', '\n'] ['\n'] 0 t = t := ih ht
    simp [replace, replaceFrom, hx, ih]

/-! ### Runs of characters -/

section

variable {q : Char → Bool}

theorem forall_mem_crlf (hq : q '\n' = true → q '\r' = true) (h : ∀ x ∈ t, q x = true) :
    ∀ x ∈ crlf t, q x = true := by
  intro x hx
  by_cases hr : x = '\r'
  · subst hr
    by_cases hn : '\n' ∈ t
    · exact hq (h _ hn)
    · rw [crlf_eq_self hn] at hx
      exact h _ hx
  · exact h x ((mem_crlf hr).mp hx)

theorem forall_mem_of_crlf (h : ∀ x ∈ crlf t, q x = true) : ∀ x ∈ t, q x = true := by
  intro x hx
  by_cases hr : x = '\r'
  · subst hr
    refine h _ ?_
    clear h
    induction t with
    | nil => cases hx
    | cons y t ih =>
      by_cases hy : y = '\n'
      · subst hy
        simp
      · rw [crlf_cons hy]
        rcases List.mem_cons.mp hx with rfl | hx
        · exact List.mem_cons_self
        · exact List.mem_cons_of_mem _ (ih hx)
  · exact h x ((mem_crlf hr).mpr hx)

/-- Backwards, a word is read up to the nearest line end. -/
theorem takeWhile_reverse_crlf (hq : q '\n' = false) (t : Text) :
    (crlf t).reverse.takeWhile q = t.reverse.takeWhile q := by
  induction t using List.reverseRecOn with
  | nil => rfl
  | append_singleton t x ih =>
    by_cases hx : x = '\n'
    · subst hx
      simp [crlf_concat_newline, hq]
    · rw [crlf_concat hx, List.reverse_concat, List.reverse_concat, List.takeWhile_cons,
        List.takeWhile_cons, ih]

variable (hq : q '\r' = q '\n')

include hq

theorem dropWhile_crlf (t : Text) : (crlf t).dropWhile q = crlf (t.dropWhile q) := by
  induction t with
  | nil => rfl
  | cons x t ih =>
    by_cases hx : x = '\n'
    · subst hx
      cases hn : q '\n' <;> simp [hq, hn, ih]
    · cases hqx : q x <;> simp [crlf_cons hx, hqx, ih]

theorem takeWhile_crlf (t : Text) : (crlf t).takeWhile q = crlf (t.takeWhile q) := by
  induction t with
  | nil => rfl
  | cons x t ih =>
    by_cases hx : x = '\n'
    · subst hx
      cases hn : q '\n' <;> simp [hq, hn, ih]
    · cases hqx : q x <;> simp [crlf_cons hx, hqx, ih]

end

/-! ### Blanks -/

theorem isBlank_carriageReturn : isBlank '\r' = isBlank '\n' := rfl

theorem allBlank_crlf (t : Text) : allBlank (crlf t) = allBlank t := by
  rw [allBlank, allBlank, Bool.eq_iff_iff, List.all_eq_true, List.all_eq_true]
  exact ⟨forall_mem_of_crlf, forall_mem_crlf fun _ => rfl⟩

theorem trimEnd_append (hu : ∀ x ∈ u, isBlank x = true) :
    trimEnd (t ++ u) = trimEnd t := by
  rw [trimEnd, trimEnd, List.reverse_append, List.dropWhile_append_of_pos (by simpa using hu)]

theorem trim_crlf (t : Text) : trim (crlf t) = crlf (trim t) := by
  obtain ⟨l, r, ht, hl, hr⟩ := exists_trim t
  have hc := isTrimmed_trim t
  generalize trim t = c at ht hc ⊢
  have htrimmed : IsTrimmed (crlf c) := by
    refine ⟨fun x hx => ?_, fun x hx => hc.last x (getLast?_crlf c ▸ hx)⟩
    rw [head?_crlf] at hx
    obtain ⟨y, hy, rfl⟩ := Option.map_eq_some_iff.mp hx
    have := hc.head y hy
    split
    · next h => rw [h] at this; cases this
    · exact this
  have hblank {u : Text} (hu : ∀ x ∈ u, isBlank x = true) : ∀ x ∈ crlf u, isBlank x = true :=
    forall_mem_crlf (fun _ => rfl) hu
  rw [ht, crlf_append, crlf_append, trim, trimStart,
    List.dropWhile_append_of_pos (hblank hl)]
  cases hc' : crlf c with
  | nil =>
    rw [List.nil_append, List.dropWhile_eq_nil_iff.mpr (hblank hr)]
    rfl
  | cons x k =>
    have hx : ¬ isBlank x = true := by
      simp [htrimmed.head x (by rw [hc']; rfl)]
    rw [List.cons_append, List.dropWhile_cons_of_neg hx, ← List.cons_append, ← hc',
      trimEnd_append (hblank hr), trimEnd_eq_self htrimmed.last]

end SnippetGate.Text
