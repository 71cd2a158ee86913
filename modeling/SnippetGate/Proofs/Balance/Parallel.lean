import SnippetGate.Proofs.Balance.Arrival
import SnippetGate.Proofs.Balance.Correspond

/-!
# Walks that go on alike

From corresponding places before the same text two walks make corresponding steps, as long as each
`<` is told alike by what stands before it. So their scans find the same, but for offsets, names and
lines.
-/

namespace SnippetGate

open ScanState

/-! ### What is seen of the rest -/

/-- All that is seen of `v` from before it is `e`: nothing if nothing is left, or a `<`, past which
nothing looks. -/
def SeenAs (e v : Text) : Prop := e = [] ∧ v = [] ∨ e = ['<'] ∧ ∃ r, v = '<' :: r

theorem Move.next_seenAs {o : ScanOptions} {stack : BracketStack} {b : Bool} {x : Char}
    {k e v : Text} (h : SeenAs e v) :
    next o stack b x (k ++ v).head? (k ++ v) = next o stack b x (k ++ e).head? (k ++ e) := by
  rcases h with ⟨rfl, rfl⟩ | ⟨rfl, r, rfl⟩
  · rfl
  · have hsplit : k ++ '<' :: r = k ++ ['<'] ++ r := by simp
    rw [hsplit]
    exact next_append (screens_concat rfl (by decide) k)

/-! ### Going on alike -/

/-- Corresponding places from which the same text `k` is still to be read, behind which both walks
see `e`. -/
structure Parallel (ρ : Nat → Nat → Prop) (g : Text → Text) (e k : Text) (s u : ScanState) : Prop
    extends s.Corresponds ρ g u where
  left : ∃ v, SeenAs e v ∧ s.cursor.after = k ++ v
  right : ∃ v, SeenAs e v ∧ u.cursor.after = k ++ v
  offset : ∀ j ≤ k.length, ρ (s.cursor.pos + j) (u.cursor.pos + j)
  before : ∀ w r, k = w ++ '<' :: r →
    opensMarkup (w.reverse ++ s.cursor.before) (r ++ e) =
      opensMarkup (w.reverse ++ u.cursor.before) (r ++ e)

namespace Parallel

variable {ρ : Nat → Nat → Prop} {g : Text → Text} {e k : Text} {s s' u : ScanState} {x : Char}
  {n n' : Nat} {m m' : Move}

/-- How far a move goes that stays before the end of the common text. -/
theorem min_length {v : Text} (he : SeenAs e v) (hm : m.length ≤ k.length ∨ e = []) :
    min m.length (k ++ v).length = min m.length k.length ∧
      (k ++ v).take m.length = k.take m.length ∧
      (k ++ v).drop m.length = k.drop m.length ++ v := by
  rcases hm with hm | rfl
  · refine ⟨?_, List.take_append_of_le_length hm, List.drop_append_of_le_length hm⟩
    rw [List.length_append]
    omega
  · rcases he with ⟨-, rfl⟩ | ⟨he, -⟩
    · simp
    · cases he

theorem apply (h : Parallel ρ g e k s u) (hmove : m.Corresponds ρ g m')
    (hm : m.length ≤ k.length ∨ e = []) (hg : Function.Injective g) (hρ : Relator.BiUnique ρ) :
    Parallel ρ g e (k.drop m.length) (m.apply s) (m'.apply u) := by
  obtain ⟨v, hv, hleft⟩ := h.left
  obtain ⟨v', hv', hright⟩ := h.right
  obtain ⟨hmin, htake, hdrop⟩ := min_length hv hm
  obtain ⟨hmin', htake', hdrop'⟩ := min_length hv' hm
  have hlen := hmove.length_eq
  exact
    { toCorresponds := hmove.apply h.toCorresponds hg hρ (h.offset 0 (Nat.zero_le _))
      left := ⟨v, hv, by rw [Move.cursor_apply, Cursor.after_skip, hleft, hdrop]⟩
      right := ⟨v', hv', by rw [Move.cursor_apply, Cursor.after_skip, hright, hlen, hdrop']⟩
      offset := fun j hj => by
        rw [List.length_drop] at hj
        rw [Move.cursor_apply, Move.cursor_apply, Cursor.pos_skip, Cursor.pos_skip, hleft, hright,
          hlen, hmin, hmin', Nat.add_assoc, Nat.add_assoc]
        exact h.offset _ (by omega)
      before := fun w r hk => by
        have hsplit : k = (k.take m.length ++ w) ++ '<' :: r := by
          rw [List.append_assoc, ← hk, List.take_append_drop]
        have hback := h.before _ r hsplit
        rw [List.reverse_append, List.append_assoc, List.append_assoc] at hback
        rw [Move.cursor_apply, Move.cursor_apply, Cursor.before_skip, Cursor.before_skip, hleft,
          hright, hlen, htake, htake', ← List.append_assoc, ← List.append_assoc]
        simpa using hback }

/-- Before the same text, both walks make corresponding moves. -/
theorem exists_steps (h : Parallel ρ g e (x :: k) s u) (hg : Renames g)
    (hnames : Move.FixesNames g (k ++ e)) (hs : InWhole n s) (hu : InWhole n' u) :
    ∃ m', Steps (whole n) s ((s.moveAt x (k ++ e)).apply s) ∧ Steps (whole n') u (m'.apply u) ∧
      (s.moveAt x (k ++ e)).Corresponds ρ g m' := by
  obtain ⟨v, hv, hleft⟩ := h.left
  obtain ⟨v', hv', hright⟩ := h.right
  refine ⟨u.moveAt x (k ++ e), ?_, ?_, ?_⟩
  · exact hs.steps_of_moveAt hleft (Move.next_seenAs hv)
  · exact hu.steps_of_moveAt hright (Move.next_seenAs hv')
  · refine Move.next_corresponds hg hnames h.mode h.quote h.frames fun hx ho => ?_
    have hback := h.before [] k (by rw [hx]; rfl)
    have hopen : ((k ++ e).head? == some '>' || (tagName? (k ++ e)).isSome) = true := by
      simpa using ho
    rw [List.reverse_nil, List.nil_append, List.nil_append, opensMarkup, opensMarkup, hopen,
      Bool.true_and, Bool.true_and] at hback
    exact hback.symm

/-- To the end of the texts, the walks find the same. -/
theorem exists_walks (h : Parallel ρ g [] k s u) (hg : Renames g) (hρ : Relator.BiUnique ρ)
    (hnames : Move.FixesNames g k) (hs : InWhole n s) (hu : InWhole n' u)
    (hw : Walks (whole n) s s') :
    ∃ u' k', Walks (whole n') u u' ∧ k' <:+ k ∧ Parallel ρ g [] k' s' u' := by
  induction hw with
  | refl => exact ⟨u, k, .refl, List.suffix_rfl, h⟩
  | @tail s' s'' hw hst ih =>
    obtain ⟨u', k', hwu, hk, h'⟩ := ih
    have hin := hs.walks hw
    obtain ⟨x, rest, ha, rfl⟩ := hin.steps hst
    obtain ⟨v, hv, hleft⟩ := h'.left
    obtain rfl : v = [] := hv.elim (·.2) fun hne => absurd hne.1 nofun
    rw [List.append_nil, ha] at hleft
    subst hleft
    have hnames' : Move.FixesNames g (rest ++ []) :=
      hnames.of_suffix (by rw [List.append_nil]; exact (List.suffix_cons x rest).trans hk)
    obtain ⟨m', hst₁, hst₂, hmove⟩ := h'.exists_steps hg hnames' hin (hu.walks hwu)
    rw [List.append_nil] at hst₁ hmove
    exact ⟨_, _, hwu.tail hst₂, (List.drop_suffix _ _).trans hk,
      h'.apply hmove (.inr rfl) hg.injective hρ⟩

end Parallel

/-! ### Outcomes -/

namespace ScanState

variable {ρ : Nat → Nat → Prop} {g : Text → Text} {s u : ScanState}

theorem Corresponds.openText (h : s.Corresponds ρ g u) (t t' : Text) :
    List.Forall₂ (Issue.Corresponds ρ g) (s.openText t) (u.openText t') := by
  unfold ScanState.openText
  rw [h.mode, h.quote]
  cases hm : s.stack.mode with
  | normal => exact .nil
  | lineComment => exact .nil
  | string =>
    obtain ⟨a, b, ha, hb, hab⟩ := h.begun (by rw [hm]; nofun)
    rw [ha, hb]
    exact .cons ⟨.unterminatedString, hab, rfl⟩ .nil
  | blockComment =>
    obtain ⟨a, b, ha, hb, hab⟩ := h.begun (by rw [hm]; nofun)
    rw [ha, hb]
    exact .cons ⟨.unterminatedComment, hab, rfl⟩ .nil

theorem Corresponds.openFrames (h : s.Corresponds ρ g u) :
    List.Forall₂ (Issue.Corresponds ρ g) s.openFrames u.openFrames := by
  have hf := List.rel_reverse h.frames
  unfold ScanState.openFrames
  rw [← List.head?_reverse, ← List.head?_reverse]
  generalize s.stack.frames.reverse = fs at hf
  generalize u.stack.frames.reverse = fs' at hf
  cases hf with
  | nil => exact .nil
  | cons htop hfs => exact .cons ⟨.unclosed (.cons htop hfs), htop.pos, rfl⟩ .nil

/-- A scan ends as from any place that it comes to. -/
theorem Walks.outcome_run {t : Text} (h : Walks (whole t.length) (Scan.start t 0) s) :
    (run (whole t.length) s).outcome t = Scan.ofText t := by
  rw [← run_eq_of_walks h]
  rfl

/-- From corresponding places the outcomes correspond. -/
theorem Corresponds.outcome (h : s.Corresponds ρ g u) (hs : s.closedAt? = none)
    (hu : u.closedAt? = none) (t t' : Text) :
    (s.outcome t).Corresponds ρ g (u.outcome t') := by
  unfold ScanState.outcome
  rw [hs, hu]
  refine ⟨?_, List.rel_reverse h.frames⟩
  exact List.rel_append (List.rel_append (List.rel_reverse h.issues) (h.openText t t')) h.openFrames

end ScanState

/-- Scans that go on alike find the same, but for offsets, names and lines. -/
theorem Parallel.outcome {ρ : Nat → Nat → Prop} {g : Text → Text} {k : Text} {s u : ScanState}
    {n n' : Nat} (h : Parallel ρ g [] k s u) (hg : Renames g) (hρ : Relator.BiUnique ρ)
    (hnames : Move.FixesNames g k) (hs : InWhole n s) (hu : InWhole n' u) (t t' : Text) :
    ((run (whole n) s).outcome t).Corresponds ρ g ((run (whole n') u).outcome t') := by
  have hw := walks_run (whole n) s
  obtain ⟨u', k', hwu, -, h'⟩ := h.exists_walks hg hρ hnames hs hu hw
  have hin := hs.walks hw
  have hin' := hu.walks hwu
  obtain ⟨v, hv, hleft⟩ := h'.left
  obtain ⟨v', hv', hright⟩ := h'.right
  obtain rfl : v = [] := hv.elim (·.2) fun hne => absurd hne.1 nofun
  obtain rfl : v' = [] := hv'.elim (·.2) fun hne => absurd hne.1 nofun
  have hafter : u'.cursor.after = [] := by rw [hright, ← hleft, hs.after_run]
  rw [hu.run_eq_of_after hwu hafter]
  exact h'.toCorresponds.outcome hin.closedAt? hin'.closedAt? t t'

/-- A place of a scan corresponds to itself under every correspondence that keeps the offsets before
it. -/
theorem ScanState.corresponds_of_walks {ρ : Nat → Nat → Prop} {t : Text} {s : ScanState}
    (hw : Walks (whole t.length) (Scan.start t 0) s) (hm : s.stack.mode = .normal)
    (hρ : ∀ x < s.cursor.pos, ρ x x) : s.Corresponds ρ id s where
  frames := List.forall₂_same.mpr fun f hf => .refl (hρ _ (hw.orderly.nested.bounds f hf).2)
  mode := rfl
  quote := rfl
  begun h := absurd hm h
  issues := List.forall₂_same.mpr fun i hi => .refl_of_before hρ (before_of_mem_issues hw i hi)

/-! ### Behind closing tags -/

/-- A closing tag ends like a tag. -/
theorem IsClosingTag.exists_reverse {name piece : Text} (h : IsClosingTag name piece) :
    ∃ q, piece.reverse = '>' :: q := by
  obtain ⟨_, ⟨-, b₁, b₂, -, -, rfl⟩, rfl⟩ := h
  exact ⟨_, by simp; rfl⟩

/-- Whether a `<` opens a tag does not depend on what stands before the end of another tag. -/
theorem opensMarkup_of_gt (w p q r : Text) :
    opensMarkup (w ++ '>' :: p) r = opensMarkup (w ++ '>' :: q) r := by
  have hback : expressionCanFollow (w ++ '>' :: p) = expressionCanFollow (w ++ '>' :: q) :=
    expressionCanFollow_append (by decide) rfl
  rw [opensMarkup, opensMarkup, hback]

namespace ScanState

variable {ρ : Nat → Nat → Prop} {g : Text → Text} {s u : ScanState} {f : Frame}
  {fs inner outer : List Frame} {name name' closer closer' r : Text} {n : Nat}

/-- Outside of other tags a closing tag is read as such. -/
theorem InWhole.steps_closingTag (hs : InWhole n s) (hm : s.stack.mode = .normal)
    (hk : contextOf s.stack.frames ≠ .attrs) (hc : IsClosingTag name closer)
    (ha : s.cursor.after = closer ++ r) :
    Steps (whole n) s ((Move.closeTag name closer.length).apply s) := by
  obtain ⟨rest, hrest, rfl⟩ := hc
  refine hs.steps_of_moveAt ha ?_
  have hread := Move.inMarkup_of_closing (r := r) hrest
  unfold moveAt Move.next
  rw [hm]
  dsimp only
  cases hcontext : contextOf s.stack.frames with
  | script => exact (Move.outside_of_script hcontext).trans hread
  | attrs => exact absurd hcontext hk
  | markup => exact (Move.outside_of_markup hcontext).trans hread

theorem closeTag_of_split (h : splitAtTag? name s.stack.frames = some (inner, outer))
    (stop : Nat) : s.closeTag name stop =
      { s with
        stack := { s.stack with frames := outer }
        issues :=
          (inner.map fun f =>
            (⟨.mismatch f (.tag name) true, s.cursor.pos, some stop⟩ : Issue)).reverse ++
              s.issues } := by
  unfold closeTag
  rw [h]

/-- The closing tag of the innermost tag closes it. -/
theorem closeTag_of_top (hf : s.stack.frames = f :: fs) (hk : f.kind = .tag) (n : Nat) :
    (Move.closeTag f.token n).apply s = s.pop.advance n := by
  have hsplit : splitAtTag? f.token s.stack.frames = some ([], fs) := by
    simp [hf, splitAtTag?, hk]
  rw [Move.apply, closeTag_of_split hsplit]
  simp only [ScanState.pop, BracketStack.pop, hf]
  rfl

/-- Behind two closing tags the walks go on alike. -/
theorem Corresponds.parallel_behind_tags (h : s.Corresponds ρ g u) (hc : IsClosingTag name closer)
    (hc' : IsClosingTag name' closer') (hs : s.cursor.after = closer ++ r)
    (hu : u.cursor.after = closer' ++ r)
    (hρ : ∀ j ≤ r.length,
      ρ (s.cursor.pos + closer.length + j) (u.cursor.pos + closer'.length + j)) :
    Parallel ρ g [] r (s.advance closer.length) (u.advance closer'.length) := by
  have hover := Cursor.over_skip hs
  have hover' := Cursor.over_skip hu
  refine
    { toCorresponds := h.advance _ _
      left := ⟨[], .inl ⟨rfl, rfl⟩, ?_⟩
      right := ⟨[], .inl ⟨rfl, rfl⟩, ?_⟩
      offset := ?_
      before := ?_ }
  · rw [after_advance, hs, List.drop_left, List.append_nil]
  · rw [after_advance, hu, List.drop_left, List.append_nil]
  · intro j hj
    rw [cursor_advance, cursor_advance, hover.pos, hover'.pos]
    exact hρ j hj
  · intro w q _
    obtain ⟨p, hp⟩ := hc.exists_reverse
    obtain ⟨p', hp'⟩ := hc'.exists_reverse
    rw [cursor_advance, cursor_advance, hover.before, hover'.before, hp, hp', List.cons_append,
      List.cons_append]
    exact opensMarkup_of_gt _ _ _ _

end ScanState

end SnippetGate
