import SnippetGate.Proofs.Pattern.LineEnds

/-!
# Patterns between other lines

A pattern that finds a piece in some lines finds it there as well if other lines stand before and
behind them. The characters around a place change only at the two ends, where a newline takes the
place of nothing, and most conditions do not tell these apart. A piece that must not follow could
begin in the lines and end behind them, unless it stays on its line.
-/

namespace SnippetGate

namespace Pattern

variable {p a b : Pattern} {K K' : Condition} {u v t before after : Text}

/-- The condition at the places of a text that stands between other lines. -/
def Condition.Between (before after : Text) (K : Condition) : Condition :=
  fun u v => K (before ++ '\n' :: u) (v ++ '\n' :: after)

/-- Whether the pieces of the pattern are taken character by character and hold no newline. -/
def staysOnLine : Pattern → Bool
  | .empty => true
  | .one p | .run p _ => !p '\n'
  | .seq a b | .alt a b => a.staysOnLine && b.staysOnLine
  | .group _ a => a.staysOnLine
  | _ => false

/-- Whether lines before and behind a text leave the pattern the pieces that it has there. -/
def isSheltered : Pattern → Bool
  | .empty | .one _ | .run _ _ | .lineStart | .lineEnd | .wordEdge => true
  | .seq a b | .alt a b => a.isSheltered && b.isSheltered
  | .group _ a => a.isSheltered
  | .notAhead a => a.staysOnLine
  | .notAfter p => !p '\n'
  | _ => false

/-! ### Places -/

/-- Where the condition is weaker, a pattern leads to it from more places. -/
theorem Reaches.mono (hK : ∀ u v, K u v → K' u v) (h : p.Reaches K u v) : p.Reaches K' u v := by
  induction p generalizing K K' u v with
  | empty => exact hK u v h
  | one q =>
    obtain ⟨x, r, hv, hx, hr⟩ := h
    exact ⟨x, r, hv, hx, hK _ _ hr⟩
  | run q greedy =>
    obtain ⟨w, r, hv, hw, hr⟩ := h
    exact ⟨w, r, hv, hw, hK _ _ hr⟩
  | seq a b iha ihb => exact iha (fun _ _ => ihb hK) h
  | alt a b iha ihb => exact h.imp (iha hK) (ihb hK)
  | group n a ih => exact ih hK h
  | notAhead a => exact ⟨h.1, hK u v h.2⟩
  | notAfter q => exact ⟨h.1, hK u v h.2⟩
  | lineStart => exact ⟨h.1, hK u v h.2⟩
  | lineEnd => exact ⟨h.1, hK u v h.2⟩
  | wordEdge => exact ⟨h.1, hK u v h.2⟩
  | star | again | ahead | textEnd => exact h.elim

/-- A piece that stays on its line is one of the lines between. -/
theorem Reaches.of_between (hp : p.staysOnLine = true)
    (h : (p.Reaches K).Between before after u v) : p.Reaches (K.Between before after) u v := by
  induction p generalizing K u v with
  | empty => exact h
  | one q =>
    obtain ⟨x, r, hv, hx, hr⟩ := h
    have hq : '\n' ∉ [x] := by
      rintro hn
      obtain rfl := List.mem_singleton.mp hn
      simp [staysOnLine, hx] at hp
    obtain ⟨k, rfl, rfl⟩ := Text.exists_of_append_cons_eq (w := [x]) hv hq
    exact ⟨x, k, rfl, hx, by simpa [Condition.Between] using hr⟩
  | run q greedy =>
    obtain ⟨w, r, hv, hw, hr⟩ := h
    have hq : '\n' ∉ w := fun hn => by simp [staysOnLine, hw '\n' hn] at hp
    obtain ⟨k, rfl, rfl⟩ := Text.exists_of_append_cons_eq hv hq
    exact ⟨w, k, rfl, hw, by simpa [Condition.Between] using hr⟩
  | seq a b iha ihb =>
    rw [staysOnLine, Bool.and_eq_true] at hp
    exact Reaches.mono (p := a) (fun _ _ => ihb hp.2) (iha hp.1 h)
  | alt a b iha ihb =>
    rw [staysOnLine, Bool.and_eq_true] at hp
    exact h.imp (iha hp.1) (ihb hp.2)
  | group n a ih => exact ih hp h
  | star | again | ahead | textEnd | notAhead | notAfter | lineStart | lineEnd | wordEdge =>
    cases hp

/-- Before a text stands nothing, or the newline that ends the lines before it. -/
theorem getLast?_between (before u : Text) :
    (before ++ '\n' :: u).getLast? = some (u.getLast?.getD '\n') := by
  rw [List.getLast?_append, List.getLast?_cons]
  rfl

theorem head?_between (v after : Text) :
    (v ++ '\n' :: after).head? = some (v.head?.getD '\n') := by
  cases v <;> rfl

/-- A sheltered pattern leads, between other lines, wherever it leads without them. -/
theorem Reaches.between (hp : p.isSheltered = true)
    (h : p.Reaches (K.Between before after) u v) : (p.Reaches K).Between before after u v := by
  induction p generalizing K u v with
  | empty => exact h
  | one q =>
    obtain ⟨x, r, rfl, hx, hr⟩ := h
    exact ⟨x, r ++ '\n' :: after, rfl, hx, by simpa [Condition.Between] using hr⟩
  | run q greedy =>
    obtain ⟨w, r, rfl, hw, hr⟩ := h
    exact ⟨w, r ++ '\n' :: after, List.append_assoc .., hw, by simpa [Condition.Between] using hr⟩
  | seq a b iha ihb =>
    rw [isSheltered, Bool.and_eq_true] at hp
    exact iha hp.1 (h.mono fun _ _ => ihb hp.2)
  | alt a b iha ihb =>
    rw [isSheltered, Bool.and_eq_true] at hp
    exact h.imp (iha hp.1) (ihb hp.2)
  | group n a ih => exact ih hp h
  | notAhead a =>
    -- what would follow now stays on its line, and so it followed before
    exact ⟨fun hfollows => h.1 (Reaches.of_between (K := fun _ _ => True) hp hfollows), h.2⟩
  | notAfter q =>
    refine ⟨fun x hx => ?_, h.2⟩
    rw [getLast?_between] at hx
    obtain rfl := Option.some.inj hx
    cases hu : u.getLast? with
    | none => simpa [isSheltered] using hp
    | some y => exact h.1 y hu
  | lineStart =>
    refine ⟨fun x hx => ?_, h.2⟩
    rw [getLast?_between] at hx
    obtain rfl := Option.some.inj hx
    cases hu : u.getLast? with
    | none => rfl
    | some y => exact h.1 y hu
  | lineEnd =>
    refine ⟨fun x hx => ?_, h.2⟩
    rw [head?_between] at hx
    obtain rfl := Option.some.inj hx
    cases hv : v.head? with
    | none => rfl
    | some y => exact h.1 y hv
  | wordEdge =>
    refine ⟨?_, h.2⟩
    have hbare (o : Option Char) : (some (o.getD '\n')).any isWord = o.any isWord := by
      cases o <;> rfl
    rw [getLast?_between, head?_between, hbare, hbare]
    exact h.1
  | star | again | ahead | textEnd => exact h.elim

/-- A sheltered pattern that occurs in a text occurs in it between any other lines. -/
theorem occursIn_between (hd : p.isDirect = true) (hs : p.isSheltered = true)
    (before after : Text) (h : p.occursIn t = true) :
    p.occursIn (before ++ '\n' :: (t ++ '\n' :: after)) = true := by
  rw [occursIn_iff_begins hd] at h ⊢
  obtain ⟨u, v, rfl, h⟩ := h
  refine ⟨before ++ '\n' :: u, v ++ '\n' :: after, by simp, ?_⟩
  exact Reaches.between (K := fun _ _ => True) hs h

/-! ### Built patterns -/

/-- What holds of two patterns one after the other if it holds of both holds of many in this way. -/
theorem apply_all {f : Pattern → Bool} (hempty : f .empty = true)
    (hseq : ∀ a b, f (.seq a b) = (f a && f b)) {ps : List Pattern} :
    f (all ps) = true ↔ ∀ p ∈ ps, f p = true := by
  induction ps with
  | nil => exact iff_of_true hempty (List.forall_mem_nil _)
  | cons p ps ih =>
    cases ps with
    | nil => simp [all]
    | cons p' ps =>
      have hall : all (p :: p' :: ps) = .seq p (all (p' :: ps)) := rfl
      rw [hall, hseq, Bool.and_eq_true, ih, List.forall_mem_cons (l := p' :: ps)]

@[simp] theorem isDirect_all {ps : List Pattern} :
    (all ps).isDirect = true ↔ ∀ p ∈ ps, p.isDirect = true :=
  apply_all rfl fun _ _ => rfl

@[simp] theorem isSheltered_all {ps : List Pattern} :
    (all ps).isSheltered = true ↔ ∀ p ∈ ps, p.isSheltered = true :=
  apply_all rfl fun _ _ => rfl

@[simp] theorem isDirect_text (x : Text) : (text x).isDirect = true := by
  rw [text, isDirect_all, List.forall_mem_map]
  exact fun _ _ => rfl

@[simp] theorem isSheltered_text (x : Text) : (text x).isSheltered = true := by
  rw [text, isSheltered_all, List.forall_mem_map]
  exact fun _ _ => rfl

theorem staysOnLine_text {x : Text} (h : '\n' ∉ x) : (text x).staysOnLine = true := by
  rw [text, apply_all rfl fun _ _ => rfl, List.forall_mem_map]
  intro y hy
  have hne : '\n' ≠ y := fun he => h (he ▸ hy)
  simpa [char, staysOnLine] using hne

end Pattern

end SnippetGate
