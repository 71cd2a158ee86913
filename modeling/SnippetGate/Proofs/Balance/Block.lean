import SnippetGate.Proofs.Balance.Walk

/-!
# Where a block ends

A scan that starts at a brace has a bracket as its outermost frame until all is closed. Tags never
close that frame, so the scan ends behind a closing bracket.
-/

namespace SnippetGate

/-- The outermost frame is a bracket. -/
def Grounded (fs : List Frame) : Prop := ∃ f ∈ fs.getLast?, f.kind = .bracket

namespace Grounded

variable {f g : Frame} {fs inner outer : List Frame}

theorem cons (h : Grounded fs) (f : Frame) : Grounded (f :: fs) := by
  obtain ⟨g, hg, hk⟩ := h
  refine ⟨g, ?_, hk⟩
  rw [List.getLast?_cons, Option.mem_def.mp hg]
  rfl

theorem of_bracket (hk : f.kind = .bracket) : Grounded [f] := ⟨f, rfl, hk⟩

/-- What is left without the innermost frame. -/
theorem tail (h : Grounded (f :: fs)) : Grounded fs ∨ fs = [] ∧ f.kind = .bracket := by
  obtain ⟨g, hg, hk⟩ := h
  cases fs with
  | nil =>
    obtain rfl := Option.some.inj hg
    exact .inr ⟨rfl, hk⟩
  | cons a fs => exact .inl ⟨g, by rwa [List.getLast?_cons_cons] at hg, hk⟩

theorem tail_of_tag (h : Grounded (f :: fs)) (hf : f.kind = .tag) : Grounded fs :=
  h.tail.resolve_right fun ⟨_, hk⟩ => by simp [hf] at hk

theorem with_phase (h : Grounded (f :: fs)) (phase : Phase) :
    Grounded ({ f with phase := phase } :: fs) := by
  rcases h.tail with h | ⟨rfl, hk⟩
  · exact h.cons _
  · exact of_bracket hk

theorem of_splitAtTag? {name : Text} (h : Grounded fs)
    (hs : ScanState.splitAtTag? name fs = some (inner, outer)) : Grounded outer := by
  induction fs generalizing inner with
  | nil => cases hs
  | cons f fs ih =>
    rw [ScanState.splitAtTag?] at hs
    split at hs
    · cases hs
    · next hk =>
      have htag : f.kind = .tag := by cases hf : f.kind <;> simp_all
      split at hs
      · obtain ⟨-, rfl⟩ := by simpa using hs
        exact h.tail_of_tag htag
      · obtain ⟨⟨i, o⟩, hio, ho⟩ := Option.map_eq_some_iff.mp hs
        obtain ⟨-, rfl⟩ := by simpa using ho
        exact ih (h.tail_of_tag htag) hio

end Grounded

namespace Move

open ScanState

variable {o : ScanOptions} {s : ScanState} {stack : BracketStack} {x : Char} {y : Option Char}
  {rest : Text}

/-- What a move that closes a frame is made for. -/
def Fits (o : ScanOptions) (stack : BracketStack) (x : Char) : Move → Prop
  | closeBracket opener _ => stack.mode = .normal ∧ o.openerOf? x = some opener
  | endTag _ => ∃ top fs, stack.frames = top :: fs ∧ top.kind = .tag
  | cutShort _ => ∃ top fs, stack.frames = top :: fs ∧ top.kind = .tag
  | _ => True

@[simp] theorem opened_apply (s : ScanState) (m : Move) : (m.apply s).opened = s.opened := by
  cases m with
  | closeBracket opener x =>
    simp only [apply, advance, ScanState.closeBracket]
    split
    · rfl
    · split <;> rfl
  | closeTag name n =>
    simp only [apply, advance, ScanState.closeTag]
    split
    · rfl
    · split
      · rfl
      · split <;> rfl
  | beginChildren =>
    simp only [apply, advance, ScanState.beginChildren]
    split <;> rfl
  | _ => rfl

theorem fits_opening : (opening rest).Fits o stack x := by
  unfold opening
  split <;> trivial

theorem fits_closing : (closing rest).Fits o stack x := by
  unfold closing
  split <;> trivial

theorem fits_inScript (hm : stack.mode = .normal) (invited : Bool) :
    (inScript o invited x y rest).Fits o stack x := by
  unfold inScript
  split
  · trivial
  split
  · trivial
  split
  · trivial
  split
  · trivial
  split
  · next opener h => exact ⟨hm, h⟩
  split
  · split
    · exact fits_closing
    split
    · exact fits_opening
    · trivial
  · trivial

theorem fits_inMarkup : (inMarkup x y rest).Fits o stack x := by
  unfold inMarkup
  split
  · trivial
  split
  · split
    · exact fits_closing
    split
    · exact fits_opening
    · trivial
  · trivial

theorem fits_inAttrs {top : Frame} {fs : List Frame} (hf : stack.frames = top :: fs)
    (h : top.kind = .tag) : (inAttrs o top x y).Fits o stack x := by
  unfold inAttrs
  split
  · trivial
  split
  · trivial
  split
  · exact ⟨top, fs, hf, h⟩
  split
  · split
    · exact ⟨top, fs, hf, h⟩
    · trivial
  split
  · exact ⟨top, fs, hf, h⟩
  split <;> trivial

theorem fits_next {invited : Bool} : (next o stack invited x y rest).Fits o stack x := by
  unfold next
  split
  · unfold inString
    repeat' split
    all_goals trivial
  · unfold inLineComment
    split <;> trivial
  · unfold inBlockComment
    split <;> trivial
  · next hm =>
    unfold outside
    split
    · exact fits_inScript hm _
    · next top fs hf =>
      split
      · split
        · exact fits_inScript hm _
        · next hattrs =>
          refine fits_inAttrs hf ?_
          cases hk : top.kind with
          | tag => rfl
          | bracket => simp [Frame.context, hk] at hattrs
        · exact fits_inMarkup
      · exact fits_inScript hm _

/-- Only a closing bracket closes the outermost bracket. -/
theorem grounded_apply {m : Move} (hm : m.Fits o s.stack x) (h : Grounded s.stack.frames) :
    Grounded (m.apply s).stack.frames ∨ (m.apply s).stack.frames = [] ∧ m.length = 1 ∧
      s.stack.mode = .normal ∧ (o.openerOf? x).isSome = true := by
  cases m with
  | pass n => exact .inl h
  | enter mode quote n => exact .inl h
  | leave n => exact .inl h
  | openBracket x => exact .inl (h.cons _)
  | openTag name phase n => exact .inl (h.cons _)
  | closeBracket opener x' =>
    have hx : s.stack.mode = .normal ∧ (o.openerOf? x).isSome = true := ⟨hm.1, by rw [hm.2]; rfl⟩
    have htail : (apply s (closeBracket opener x')).stack.frames = s.stack.frames.tail := by
      simp only [apply, advance, ScanState.closeBracket]
      split
      · next he => simp [report, he]
      · split <;> rfl
    rw [htail]
    cases hf : s.stack.frames with
    | nil => exact .inr ⟨rfl, rfl, hx⟩
    | cons f fs =>
      rw [hf] at h
      exact h.tail.imp_right fun he => ⟨he.1, rfl, hx⟩
  | closeTag name n =>
    refine .inl ?_
    simp only [apply, advance, ScanState.closeTag]
    split
    · next hs => exact h.of_splitAtTag? hs
    · split
      · next hf => rw [hf] at h; exact hf ▸ h
      · next top fs hf =>
        split
        · next hk =>
          rw [hf] at h
          simpa [ScanState.pop, BracketStack.pop, report, hf] using h.tail_of_tag hk
        · exact h
  | endTag n =>
    obtain ⟨top, fs, hf, hk⟩ := hm
    rw [hf] at h
    exact .inl (by simpa [apply, advance, ScanState.pop, BracketStack.pop, hf]
      using h.tail_of_tag hk)
  | beginChildren =>
    refine .inl ?_
    simp only [apply, advance, ScanState.beginChildren]
    split
    · exact h
    · next top fs hf =>
      rw [hf] at h
      exact h.with_phase _
  | cutShort top =>
    obtain ⟨top, fs, hf, hk⟩ := hm
    rw [hf] at h
    exact .inl (by simpa [apply, ScanState.pop, BracketStack.pop, report, hf]
      using h.tail_of_tag hk)
  | stray top x => exact .inl h

end Move

namespace ScanState

variable {o : ScanOptions} {c : Cursor} {s u : ScanState}

/-- A place behind the brace at `c`, inside of the block or at its end. -/
structure InBlock (o : ScanOptions) (c : Cursor) (s : ScanState) : Prop where
  begun : ∃ a, c.Over a s.cursor ∧ a ≠ []
  opened : s.opened = true
  grounded : s.closedAt? = none → Grounded s.stack.frames
  closed : ∀ j ∈ s.closedAt?, j = s.cursor.pos ∧
    ∃ a x, c.Over (a ++ [x]) s.cursor ∧ (o.openerOf? x).isSome = true

theorem exists_over_skip (d : Cursor) (n : Nat) : ∃ b, d.Over b (d.skip n) := by
  refine ⟨d.after.take n, ?_, Cursor.before_skip n d, ?_⟩
  · rw [Cursor.after_skip, List.take_append_drop]
  · rw [Cursor.pos_skip, List.length_take]

/-- A step goes on inside of the block, or closes it with a bracket. -/
theorem InBlock.step (ho : o.stopsWhenBalanced = true) (h : InBlock o c s) (hst : Steps o s u) :
    InBlock o c u := by
  obtain ⟨a, ha, hne⟩ := h.begun
  rw [Steps, next?] at hst
  split at hst
  · cases hst
  next hopen =>
  have hnone : s.closedAt? = none := by simpa using (not_or.mp hopen).1
  split at hst
  · cases hst
  next x rest hafter =>
  obtain rfl := Option.some.inj hst
  have hfits : (move o s x rest).Fits o s.stack x := Move.fits_next
  have hcursor : ((move o s x rest).apply s).cursor = s.cursor.skip (move o s x rest).length :=
    Move.cursor_apply ..
  have hopened : ((move o s x rest).apply s).opened = true := by rw [Move.opened_apply, h.opened]
  have hclosed : ((move o s x rest).apply s).closedAt? = none := by
    rw [Move.closedAt?_apply, hnone]
  rw [step_eq_apply]
  generalize move o s x rest = m at hfits hcursor hopened hclosed ⊢
  have hground := Move.grounded_apply hfits (h.grounded hnone)
  generalize m.apply s = v at hground hcursor hopened hclosed ⊢
  have hover : ∃ b, c.Over b v.cursor ∧ b ≠ [] := by
    obtain ⟨b, hb⟩ := exists_over_skip s.cursor m.length
    exact ⟨a ++ b, hcursor ▸ ha.trans hb, by simp [hne]⟩
  -- something is still open, or the block was closed by the character that was read
  rcases hground with hg | ⟨hnil, hlen, hmode, hx⟩
  · have hframes : v.stack.frames.isEmpty = false := by
      obtain ⟨f, hf, -⟩ := hg
      cases hfs : v.stack.frames with
      | nil => simp [hfs] at hf
      | cons g fs => rfl
    split
    · have he : v.noteBalance o = { v with opened := true } := by simp [noteBalance, ho, hframes]
      rw [he]
      exact ⟨hover, rfl, fun _ => hg, fun j hj => by simp [hclosed] at hj⟩
    · exact ⟨hover, hopened, fun _ => hg, fun j hj => by simp [hclosed] at hj⟩
  · have he : v.noteBalance o = { v with closedAt? := some v.cursor.pos } := by
      simp [noteBalance, ho, hnil, hopened]
    rw [if_pos hmode, he]
    refine ⟨hover, hopened, fun h => absurd h (Option.some_ne_none _),
      fun j hj => ⟨(Option.some.inj hj).symm, a, x, ?_, hx⟩⟩
    dsimp only
    rw [hcursor, hlen]
    exact ha.trans (Cursor.over_skip_one hafter)

/-- The first step goes into the block. -/
theorem inBlock_of_brace {t r : Text} {i : Nat} (ho : o.stopsWhenBalanced = true)
    (hb : o.isOpener '{' = true) (hr : t.drop i = '{' :: r)
    (hst : Steps o (Scan.start t i) u) : InBlock o (.startingAt t i) u := by
  have hafter : (Scan.start t i).cursor.after = '{' :: r := hr
  have hmove : move o (Scan.start t i) '{' r = .openBracket '{' := by
    simp [move, Move.next, Scan.start, Move.outside, Move.inScript, hb]
  rw [Steps, next?] at hst
  split at hst
  · cases hst
  rw [hafter] at hst
  obtain rfl := Option.some.inj hst
  have hm : (Scan.start t i).stack.mode = .normal := rfl
  rw [step_eq_apply, if_pos hm, hmove]
  have he : ((Move.openBracket '{').apply (Scan.start t i)).noteBalance o =
      { (Move.openBracket '{').apply (Scan.start t i) with opened := true } := by
    simp [noteBalance, ho, Move.apply, push, BracketStack.push, advance]
  rw [he]
  refine ⟨⟨['{'], ?_, List.cons_ne_nil _ _⟩, rfl, fun _ => Grounded.of_bracket rfl,
    fun j hj => absurd hj (Option.not_mem_none j)⟩
  exact Cursor.over_skip_one hr

end ScanState

/-- A block that begins with a brace ends with a closing bracket behind it. -/
theorem Text.exists_of_blockEnd? {t r : Text} {i j : Nat} (hr : t.drop i = '{' :: r)
    (h : t.blockEnd? i = some j) :
    ∃ a x, t.drop i = a ++ x :: t.drop j ∧ j = i + a.length + 1 ∧
      (x = ')' ∨ x = ']' ∨ x = '}') := by
  let o : ScanOptions := { limit := t.length, stopsWhenBalanced := true }
  have hlt : i < t.length := by
    have := congrArg List.length hr
    rw [List.length_drop, List.length_cons] at this
    omega
  have hfirst : ∃ u, ScanState.Steps o (Scan.start t i) u := by
    have hlimit : (Cursor.startingAt t i).pos < o.limit := hlt
    refine ⟨(Scan.start t i).step o '{' r, ?_⟩
    rw [ScanState.Steps, ScanState.next?, if_neg (by simp [Scan.start, hlimit])]
    have hafter : (Scan.start t i).cursor.after = '{' :: r := hr
    rw [hafter]
  obtain ⟨u, hu⟩ := hfirst
  have hend : ScanState.InBlock o (.startingAt t i) (ScanState.run o (Scan.start t i)) := by
    rw [ScanState.run_eq_of_steps hu]
    exact (ScanState.walks_run o u).keeps (fun hst hs => hs.step rfl hst)
      (ScanState.inBlock_of_brace rfl rfl hr hu)
  have hclosed : (ScanState.run o (Scan.start t i)).closedAt? = some j := by
    rw [← h, blockEnd?, Scan.ofTextWith, ScanState.outcome]
    split
    · rfl
    · next hn => simpa using hn
  obtain ⟨hj, a, x, hover, hx⟩ := hend.closed j hclosed
  have hpos : j = i + (a ++ [x]).length := hj.trans hover.pos
  have hdrop : t.drop i = (a ++ [x]) ++ (ScanState.run o (Scan.start t i)).cursor.after :=
    hover.after
  refine ⟨a, x, ?_, by rw [hpos]; simp [Nat.add_assoc], ?_⟩
  · rw [hpos, ← List.drop_drop, hdrop, List.drop_left, List.append_assoc, List.singleton_append]
  · have hpair : ∃ p ∈ o.pairs, p.2 = x := by simpa [ScanOptions.openerOf?] using hx
    simpa [o, eq_comm] using hpair

end SnippetGate
