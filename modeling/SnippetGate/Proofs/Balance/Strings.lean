import SnippetGate.Proofs.Balance.Arrival
import SnippetGate.Proofs.Balance.Comments
import SnippetGate.Proofs.Balance.Fate
import SnippetGate.Proofs.Balance.ReadAt

/-!
# What stands inside of strings

Up to a string a scan does not see what stands in it, and it goes over the string without taking
notice. Behind the string it may look back, but not past the closing quote. So two texts between
which only the inside of a string differs are scanned alike.
-/

namespace SnippetGate

open ScanState Grammar

theorem quote_of_isQuote {k : Context} {q : Char} (h : IsQuote k q) :
    q = '\x22' ∨ q = '\x27' ∨ q = '\x60' := by
  cases k with
  | script => exact h
  | attrs => exact h.imp_right .inl
  | markup => exact h.elim

namespace Move

variable {o : ScanOptions} {stack : BracketStack} {b : Bool} {x : Char} {rest quote : Text}
  {mode : Mode} {n k : Nat} {s : ScanState} {m : Move}

theorem opening_ne_enter : opening rest ≠ enter mode quote k := by
  unfold opening
  split <;> nofun

theorem closing_ne_enter : closing rest ≠ enter mode quote k := by
  unfold closing
  split <;> nofun

theorem isQuote_of_inScript {y : Option Char}
    (h : inScript o b x y rest = enter .string quote k) :
    IsQuote .script x ∧ enter .string quote k = enter .string [x] 1 := by
  unfold inScript at h
  split at h
  · next hx => exact ⟨hx, h.symm⟩
  split at h
  · cases h
  split at h
  · cases h
  split at h
  · cases h
  split at h
  · cases h
  split at h
  · split at h
    · exact absurd h closing_ne_enter
    split at h
    · exact absurd h opening_ne_enter
    · cases h
  · cases h

theorem isQuote_of_inAttrs {top : Frame} {y : Option Char}
    (h : inAttrs o top x y = enter .string quote k) :
    IsQuote .attrs x ∧ enter .string quote k = enter .string [x] 1 := by
  unfold inAttrs at h
  split at h
  · next hx => exact ⟨hx, h.symm⟩
  split at h
  · cases h
  split at h
  · cases h
  split at h
  · split at h <;> cases h
  split at h
  · cases h
  split at h <;> cases h

theorem inMarkup_ne_enter {y : Option Char} : inMarkup x y rest ≠ enter mode quote k := by
  unfold inMarkup
  split
  · nofun
  split
  · split
    · exact closing_ne_enter
    split
    · exact opening_ne_enter
    · nofun
  · nofun

/-- A string begins with a quote of its context, outside of strings and comments. -/
theorem isQuote_of_next
    (h : next (whole n) stack b x rest.head? rest = enter .string quote k) :
    stack.mode = .normal ∧ IsQuote (contextOf stack.frames) x ∧
      enter .string quote k = enter .string [x] 1 := by
  unfold next at h
  split at h
  · unfold inString at h
    split at h
    · cases h
    · split at h <;> cases h
  · unfold inLineComment at h
    split at h <;> cases h
  · unfold inBlockComment at h
    split at h <;> cases h
  next hm =>
  refine ⟨hm, ?_⟩
  cases hk : contextOf stack.frames with
  | script => exact isQuote_of_inScript (outside_of_script hk ▸ h)
  | attrs =>
    obtain ⟨f, gs, hf, hattrs⟩ := exists_of_attrs hk
    rw [hf, outside_of_attrs hattrs] at h
    exact isQuote_of_inAttrs h
  | markup => exact absurd (outside_of_markup hk ▸ h) inMarkup_ne_enter

/-- A move that leads into a string begins one, if it does not come from inside of one. -/
theorem string_of_apply (h : (m.apply s).stack.mode = .string) :
    s.stack.mode = .string ∨ ∃ quote k, m = enter .string quote k := by
  cases m with
  | enter mode quote n =>
    obtain rfl : mode = .string := h
    exact .inr ⟨quote, n, rfl⟩
  | leave n => cases h
  | closeBracket opener x =>
    simp only [apply, ScanState.advance, ScanState.closeBracket] at h
    split at h
    · exact .inl h
    · split at h <;> exact .inl h
  | closeTag name n =>
    simp only [apply, ScanState.advance, ScanState.closeTag] at h
    split at h
    · exact .inl h
    · split at h
      · exact .inl h
      · split at h <;> exact .inl h
  | beginChildren =>
    simp only [apply, ScanState.advance, ScanState.beginChildren] at h
    split at h <;> exact .inl h
  | _ => exact .inl h

end Move

namespace ScanState

variable {t post body r x : Text} {q : Char} {n k : Nat} {s s' : ScanState}

/-- The place behind the first characters of a string that begins here. -/
def inLiteral (s : ScanState) (q : Char) (k : Nat) : ScanState :=
  ((Move.enter .string [q] 1).apply s).advance k

/-- The place is inside of a string that the scan of the text began. -/
def Continues (t : Text) (s : ScanState) : Prop :=
  ∃ r q rest k, Walks (whole t.length) (Scan.start t 0) r ∧ r.cursor.after = q :: rest ∧
    r.stack.mode = .normal ∧ IsQuote (contextOf r.stack.frames) q ∧ s = r.inLiteral q k

theorem Continues.step (hw : Walks (whole t.length) (Scan.start t 0) s)
    (h : s.stack.mode = .string → Continues t s) (hst : Steps (whole t.length) s s')
    (hm : s'.stack.mode = .string) : Continues t s' := by
  obtain ⟨x, rest, ha, rfl⟩ := ((inWhole_start t).walks hw).steps hst
  rcases Move.string_of_apply hm with hs | ⟨quote, k, hmove⟩
  · -- inside of the string a step goes on over some characters, or leaves it
    obtain ⟨j, hj⟩ : ∃ j, s.moveAt x rest = .pass j := by
      have hin : s.moveAt x rest = Move.inString s.stack.quote x := by
        unfold moveAt Move.next
        rw [hs]
      rw [hin] at hm ⊢
      unfold Move.inString at hm ⊢
      split
      · exact ⟨2, rfl⟩
      split
      · next hback hend =>
        rw [if_neg hback, if_pos hend] at hm
        cases hm
      · exact ⟨1, rfl⟩
    obtain ⟨r, q, rest', k, hr, hafter, hmode, hq, rfl⟩ := h hs
    refine ⟨r, q, rest', k + j, hr, hafter, hmode, hq, ?_⟩
    rw [hj]
    exact advance_advance _ k j
  · obtain ⟨hmode, hq, he⟩ := Move.isQuote_of_next hmove
    refine ⟨s, x, rest, 0, hw, ha, hmode, hq, ?_⟩
    rw [hmove, he]
    rfl

/-- Inside of strings a scan has come there from a quote. -/
theorem continues_of_walks (hw : Walks (whole t.length) (Scan.start t 0) s)
    (hm : s.stack.mode = .string) : Continues t s := by
  have both := hw.keeps (P := fun s => Walks (whole t.length) (Scan.start t 0) s ∧
      (s.stack.mode = .string → Continues t s))
    (fun hst h => ⟨h.1.tail hst, Continues.step h.1 h.2 hst⟩) ⟨.refl, nofun⟩
  exact both.2 hm

/-! ### Through the string -/

/-- A walk goes on over the characters of a string that neither end it nor escape another. -/
theorem InWhole.walks_stringBody (h : InWhole n s) (hm : s.stack.mode = .string)
    (hq : ∀ z ∈ body, s.stack.quote ≠ [z]) (hb : '\\' ∉ body) (ha : s.cursor.after = body ++ r) :
    Walks (whole n) s (s.advance body.length) := by
  induction body generalizing s with
  | nil => exact .refl
  | cons x body ih =>
    obtain ⟨hx, hq⟩ := List.forall_mem_cons.mp hq
    obtain ⟨hback, hb⟩ := not_or.mp (fun h => hb (List.mem_cons.mpr h))
    have hstep : Steps (whole n) s (s.advance 1) := by
      refine h.steps_of_moveAt (m := .pass 1) ha ?_
      unfold moveAt Move.next
      rw [hm]
      dsimp only
      rw [Move.inString, if_neg (Ne.symm hback), if_neg hx]
    have hrest := ih (h.advance 1) hm hq hb (by rw [after_advance, ha]; rfl)
    rw [advance_advance, Nat.add_comm] at hrest
    exact .head hstep hrest

end ScanState

end SnippetGate
