import SnippetGate.Proofs.Balance.Seam

/-!
# Places that two scans come to

Looking ahead ends at a character that is neither a blank nor part of a name. So two texts that
agree up to such a character are scanned alike up to there: where one scan comes to that character,
the other one comes to it in the same state, whatever the texts go on with.
-/

namespace SnippetGate

open ScanState

/-- The scan of a text comes to this place, which is at offset `i`. -/
structure Arrives (t : Text) (i : Nat) (s : ScanState) : Prop where
  walks : Walks (whole t.length) (Scan.start t 0) s
  pos : s.cursor.pos = i

theorem Arrives.inWhole {t : Text} {i : Nat} {s : ScanState} (h : Arrives t i s) :
    InWhole t.length s := (inWhole_start t).walks h.walks

/-! ### Moves that take no character -/

namespace Move

variable {o : ScanOptions} {stack : BracketStack} {b : Bool} {x : Char} {rest : Text}

theorem length_inMarkup_pos {y : Option Char} : 0 < (inMarkup x y rest).length := by
  unfold inMarkup
  split
  · exact Nat.zero_lt_one
  split
  · split
    · exact length_closing_pos rest.tail
    split
    · exact length_opening_pos rest
    · exact Nat.zero_lt_one
  · exact Nat.zero_lt_one

/-- A tag that another one cuts short is cut short whatever the other one is. -/
theorem next_of_length_eq_zero {y y' : Option Char} {rest' : Text}
    (h : (next o stack b x y rest).length = 0) :
    next o stack b x y' rest' = next o stack b x y rest := by
  obtain rfl : x = '<' := by
    by_contra hx
    exact absurd h (length_next_pos hx).ne'
  unfold next at h ⊢
  cases hm : stack.mode with
  | normal =>
    rw [hm] at h
    dsimp only at h ⊢
    unfold outside at h ⊢
    cases hf : stack.frames with
    | nil =>
      rw [hf] at h
      exact absurd h length_inScript_pos.ne'
    | cons f fs =>
      rw [hf] at h
      dsimp only at h ⊢
      split
      · next ht =>
        rw [if_pos ht] at h
        cases hc : f.context with
        | script =>
          rw [hc] at h
          exact absurd h length_inScript_pos.ne'
        | attrs => simp [inAttrs]
        | markup =>
          rw [hc] at h
          exact absurd h length_inMarkup_pos.ne'
      · next ht =>
        rw [if_neg ht] at h
        exact absurd h length_inScript_pos.ne'
  | blockComment => simp [inBlockComment]
  | _ => rfl

end Move

/-! ### Coming to the same character -/

section SameCharacter

variable {pre u v : Text} {g : Char} {n m : Nat} {s s' : ScanState}

/-- How two walks have come together through the text before `g`, if they are not past it. -/
def UpTo (pre u v : Text) (g : Char) (n m : Nat) (start s : ScanState) : Prop :=
  InWhole n s ∧ (pre.length < s.cursor.pos ∨ ∃ t, Walks (whole m) start t ∧ InWhole m t ∧
    Along (pre.drop s.cursor.pos ++ [g]) u v s t)

theorem screens_concat (hg : stopsLooking g = true) (hs : g ≠ '/') (q : Text) :
    Screens (q ++ [g]) where
  shields := ⟨g, by simp, hg⟩
  tail := by
    cases q with
    | nil => exact fun h => absurd (Option.some.inj h) hs
    | cons y q => exact fun _ => ⟨g, by simp, hg⟩

theorem UpTo.step {start : ScanState} (hg : stopsLooking g = true) (hs : g ≠ '/')
    (h : UpTo pre u v g n m start s) (hst : Steps (whole n) s s') :
    UpTo pre u v g n m start s' := by
  obtain ⟨hin, h⟩ := h
  obtain ⟨x, rest, ha, rfl⟩ := hin.steps hst
  refine ⟨hin.apply _, ?_⟩
  rw [Move.cursor_apply, Cursor.pos_skip]
  rcases h with hpast | ⟨t, hw, ht, h⟩
  · exact .inl (by omega)
  cases hd : pre.drop s.cursor.pos with
  | nil =>
    rw [hd, List.nil_append] at h
    have hle := List.drop_eq_nil_iff.mp hd
    obtain ⟨rfl, rfl⟩ := List.cons.inj (ha.symm.trans h.left)
    by_cases hzero : (s.moveAt x rest).length = 0
    · -- the tag before `g` is cut short, and the walks stay where they are
      have hmove : t.moveAt x v = s.moveAt x rest := by
        unfold moveAt at hzero ⊢
        rw [← h.before, ← h.stack]
        exact Move.next_of_length_eq_zero hzero
      have hst' := ht.steps_moveAt (show t.cursor.after = x :: v from h.right)
      rw [hmove] at hst'
      have happly := h.apply (m := s.moveAt x rest) (by omega)
      rw [hzero, List.drop_zero] at happly
      refine .inr ⟨_, hw.tail hst', ht.apply _, ?_⟩
      rw [hzero, Nat.zero_min, Nat.add_zero, hd]
      exact happly
    · refine .inl ?_
      rw [ha, List.length_cons]
      omega
  | cons y q =>
    rw [hd, List.cons_append] at h
    have hlen : q.length + 1 = pre.length - s.cursor.pos := by
      rw [← List.length_cons, ← hd, List.length_drop]
    have hr := screens_concat hg hs q
    have hleft : s.cursor.after = y :: (q ++ [g] ++ u) := h.left
    have hright : t.cursor.after = y :: (q ++ [g] ++ v) := h.right
    obtain ⟨rfl, rfl⟩ := List.cons.inj (ha.symm.trans hleft)
    have hst' := ht.steps_moveAt hright
    have hle : (s.moveAt x (q ++ [g] ++ u)).length ≤ (q ++ [g]).length + 1 :=
      Along.length_moveAt_le hr
    have halong := h.apply hle
    rw [h.moveAt_eq hr] at hst'
    generalize s.moveAt x (q ++ [g] ++ u) = k at hle hst' halong ⊢
    have hmin : min k.length s.cursor.after.length = k.length := by
      rw [hleft, List.length_cons, List.length_append]
      omega
    rw [hmin]
    by_cases hpast : pre.length < s.cursor.pos + k.length
    · exact .inl hpast
    · refine .inr ⟨_, hw.tail hst', ht.apply _, ?_⟩
      have hk : k.length ≤ (x :: q).length := by
        rw [List.length_cons]
        omega
      rw [← List.drop_drop, hd, ← List.drop_append_of_le_length hk]
      exact halong

/-- Where the scan of one text comes to a character that ends all looking ahead, so does the scan of
the other text. -/
theorem Arrives.along (hg : stopsLooking g = true) (hs : g ≠ '/')
    (h : Arrives (pre ++ g :: u) pre.length s) :
    ∃ t, Arrives (pre ++ g :: v) pre.length t ∧ Along [g] u v s t := by
  have hsplit (r : Text) : pre ++ [g] ++ r = pre ++ g :: r := by simp
  have hstart := along_start (pre ++ [g]) u v
  rw [hsplit, hsplit] at hstart
  have hupto := h.walks.keeps (P := UpTo pre u v g _ (pre ++ g :: v).length
      (Scan.start (pre ++ g :: v) 0))
    (fun hst hb => hb.step hg hs hst) ⟨inWhole_start _, .inr ⟨_, .refl, inWhole_start _, hstart⟩⟩
  rcases hupto.2 with hpast | ⟨t, hw, -, halong⟩
  · rw [h.pos] at hpast
    exact absurd hpast (Nat.lt_irrefl _)
  · rw [h.pos, List.drop_length, List.nil_append] at halong
    exact ⟨t, ⟨hw, halong.pos ▸ h.pos⟩, halong⟩

end SameCharacter

end SnippetGate
