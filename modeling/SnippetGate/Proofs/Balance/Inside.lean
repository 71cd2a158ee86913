import SnippetGate.Proofs.Balance.Block
import SnippetGate.Proofs.Balance.Comments
import SnippetGate.Proofs.Balance.ReadAt
import SnippetGate.Proofs.Balance.Shift

/-!
# A block is read as a part of its text

The scan that stops at the end of a block makes the same steps as the scan that goes on, up to the
first place where nothing is open any more. What stands behind the block is not looked at on the
way, and what stands before its brace is not either.
-/

namespace SnippetGate

/-- Options like these, for a scan that stops when all is closed or for one that does not. -/
def ScanOptions.stopping (o : ScanOptions) (stops : Bool) : ScanOptions :=
  { o with stopsWhenBalanced := stops }

namespace ScanState

variable {o : ScanOptions} {n m : Nat} {s t u : ScanState} {x : Char} {rest : Text}

/-! ### Walks under open frames -/

/-- A walk on which something is open at every place but perhaps the last. -/
def WalksOpen (n : Nat) : ScanState → ScanState → Prop :=
  Relation.ReflTransGen fun s t => s.stack.frames ≠ [] ∧ Steps (whole n) s t

theorem WalksOpen.walks (h : WalksOpen n s t) : Walks (whole n) s t :=
  Relation.ReflTransGen.mono (fun _ _ hst => hst.2) _ _ h

/-! ### The scan that stops -/

/-- The options of a scan of a text of length `n` that stops when all is closed. -/
abbrev stopping (n : Nat) : ScanOptions := { limit := n, stopsWhenBalanced := true }

/-- The same place in a scan that stops when all is closed, after something has been open. -/
def watched (s : ScanState) : ScanState :=
  { s with
    opened := true
    closedAt? := if s.stack.frames = [] then some s.cursor.pos else none }

theorem watched_of_ne_nil (h : s.stack.frames ≠ []) :
    s.watched = { s with opened := true, closedAt? := none } := by
  rw [watched, if_neg h]

/-- A move does not look at whether the scan stops. -/
theorem apply_noted (s : ScanState) (m : Move) (b : Bool) (j : Option Nat) :
    m.apply { s with opened := b, closedAt? := j } =
      { m.apply s with opened := b, closedAt? := j } := by
  cases m with
  | closeBracket opener x =>
    simp only [Move.apply, advance, closeBracket]
    split
    · rfl
    · split <;> rfl
  | closeTag name n =>
    simp only [Move.apply, advance, closeTag]
    split
    · rfl
    · split
      · rfl
      · split <;> rfl
  | beginChildren =>
    simp only [Move.apply, advance, beginChildren]
    split <;> rfl
  | _ => rfl

/-- Inside of strings and comments nothing is opened or closed. -/
theorem frames_apply_of_mode (hm : s.stack.mode ≠ .normal) (o : ScanOptions) (invited : Bool)
    (x : Char) (y : Option Char) (rest : Text) :
    ((Move.next o s.stack invited x y rest).apply s).stack.frames = s.stack.frames := by
  unfold Move.next
  cases hmode : s.stack.mode with
  | normal => exact absurd hmode hm
  | string =>
    dsimp only
    unfold Move.inString
    repeat' split
    all_goals rfl
  | lineComment =>
    dsimp only
    unfold Move.inLineComment
    split <;> rfl
  | blockComment =>
    dsimp only
    unfold Move.inBlockComment
    split <;> rfl

/-- The same place in a scan that stops when all is closed, where that has not happened yet. -/
def watching (s : ScanState) : ScanState := { s with opened := !s.stack.frames.isEmpty }

/-- As long as something is open it does not matter whether something was open before. -/
theorem watched_eq_watching (hc : s.closedAt? = none) (hne : s.stack.frames ≠ []) :
    s.watched = s.watching := by
  have hopen : (!s.stack.frames.isEmpty) = true := by simpa using hne
  rw [watched_of_ne_nil hne, watching, hopen, ← hc]

/-- A move does not look at whether something has been open. -/
theorem apply_opened (s : ScanState) (m : Move) (b : Bool) :
    m.apply { s with opened := b } = { m.apply s with opened := b } :=
  calc m.apply { s with opened := b }
    _ = { m.apply s with opened := b, closedAt? := s.closedAt? } := apply_noted s m b s.closedAt?
    _ = { m.apply s with opened := b } := by rw [← Move.closedAt?_apply s m]

/-- What is noted behind a step that is not inside of a string or a comment. -/
theorem noteBalance_stopping (hc : s.closedAt? = none) (b : Bool) :
    ({ s with opened := b } : ScanState).noteBalance (o.stopping true) =
      if b then s.watched else s.watching := by
  unfold noteBalance
  by_cases hf : s.stack.frames = []
  · cases b <;> simp [ScanOptions.stopping, watched, watching, hf]
  · cases b <;> simp [ScanOptions.stopping, watched, watching, hf, hc]

/-- The scan that stops makes the same step, and stops behind it if that has closed all. -/
theorem next?_watching (hc : s.closedAt? = none) :
    next? (o.stopping true) s.watching = (next? (o.stopping false) s).map fun u =>
      if s.stack.frames = [] then u.watching else u.watched := by
  unfold next?
  have hcursor : s.watching.cursor = s.cursor := rfl
  have hclosed : s.watching.closedAt? = none := hc
  have hlimit (b : Bool) : (o.stopping b).limit = o.limit := rfl
  rw [hcursor, hclosed, hc, hlimit, hlimit]
  split
  · rfl
  cases s.cursor.after with
  | nil => rfl
  | cons x rest =>
    have hmove : move (o.stopping true) s.watching x rest = move (o.stopping false) s x rest := rfl
    have hmode : s.watching.stack.mode = s.stack.mode := rfl
    have hsilent (u : ScanState) : u.noteBalance (o.stopping false) = u := rfl
    dsimp only [Option.map_some]
    rw [step_eq_apply, step_eq_apply, hmove, hmode, hsilent, ite_self, watching, apply_opened]
    have hnone : ((s.move (o.stopping false) x rest).apply s).closedAt? = none := by
      rw [Move.closedAt?_apply, hc]
    have hopen : (!s.stack.frames.isEmpty) = true ↔ s.stack.frames ≠ [] := by simp
    split
    · rw [noteBalance_stopping hnone]
      by_cases hf : s.stack.frames = [] <;> simp [hf]
    · next hm =>
      have hframes : ((s.move (o.stopping false) x rest).apply s).stack.frames = s.stack.frames :=
        frames_apply_of_mode hm ..
      generalize (s.move (o.stopping false) x rest).apply s = u at hnone hframes
      have hwatching : ({ u with opened := !s.stack.frames.isEmpty } : ScanState) = u.watching := by
        rw [watching, hframes]
      rw [hwatching]
      split
      · rfl
      · next hf => rw [watched_eq_watching hnone (hframes ▸ hf)]

/-- The scan that stops makes the same step, as long as something is open. -/
theorem next?_watched (hs : InWhole n s) (hne : s.stack.frames ≠ []) :
    next? (stopping n) s.watched = (next? (whole n) s).map watched := by
  have h := next?_watching (o := whole n) hs.closedAt?
  simp only [if_neg hne] at h
  rw [watched_eq_watching hs.closedAt? hne]
  exact h

/-- A scan that stops does so at the end of a walk under open frames. -/
theorem run_watched_of_walksOpen (hs : InWhole n s) (hw : WalksOpen n s t)
    (ht : t.stack.frames = []) : run (stopping n) s.watched = t.watched := by
  induction hw using Relation.ReflTransGen.head_induction_on with
  | refl =>
    refine run_eq_self ?_
    rw [next?, if_pos (.inl (by rw [watched, if_pos ht]; rfl))]
  | head hst hw ih =>
    have hstep : next? (stopping n) _ = _ := next?_watched hs hst.1
    rw [hst.2] at hstep
    rw [run_eq_of_steps hstep]
    exact ih (hs.walks (.single hst.2))

/-- A scan that stops walks under open frames, up to where nothing is open or the text ends. -/
theorem exists_walksOpen_run (hs : InWhole n s) : ∃ t, WalksOpen n s t ∧
    run (stopping n) s.watched = t.watched ∧ (t.stack.frames = [] ∨ t.cursor.after = []) := by
  induction s using run.induct (whole n) with
  | case1 s h =>
    have hafter := (next?_whole_eq_none hs.stop hs.closedAt?).mp h
    refine ⟨s, .refl, run_eq_self ?_, .inr hafter⟩
    have : s.watched.cursor.after = [] := hafter
    rw [next?, this]
    exact ite_self _
  | case2 s u h ih =>
    by_cases hf : s.stack.frames = []
    · exact ⟨s, .refl, run_watched_of_walksOpen hs .refl hf, .inl hf⟩
    · obtain ⟨t, hw, hrun, ht⟩ := ih (hs.walks (.single h))
      refine ⟨t, .head ⟨hf, h⟩ hw, ?_, ht⟩
      rw [← hrun]
      exact run_eq_of_steps (by rw [Steps, next?_watched hs hf, h]; rfl)

/-! ### The walk through a block -/

/-- The place behind the brace at offset `i`, in a scan that starts at the brace. -/
def intoBlock (t : Text) (i : Nat) : ScanState := (Move.openBracket '{').apply (Scan.start t i)

end ScanState

namespace Text

open ScanState

variable {t r : Text} {i j : Nat} {s : ScanState}

theorem inWhole_intoBlock (hr : t.drop i = '{' :: r) : InWhole t.length (intoBlock t i) := by
  refine InWhole.apply ⟨?_, rfl⟩ _
  have hlen := congrArg List.length hr
  rw [List.length_drop, List.length_cons] at hlen
  have hstop : (Scan.start t i).cursor.stop = i + (t.drop i).length := rfl
  rw [hstop, List.length_drop]
  omega

theorem grounded_intoBlock (t : Text) (i : Nat) : Grounded (intoBlock t i).stack.frames :=
  .of_bracket rfl

theorem steps_intoBlock (hr : t.drop i = '{' :: r) :
    Steps (stopping t.length) (Scan.start t i) (intoBlock t i).watched := by
  have hafter : (Scan.start t i).cursor.after = '{' :: r := hr
  have hlt : ¬ t.length ≤ (Scan.start t i).cursor.pos := by
    have hlen := congrArg List.length hr
    rw [List.length_drop, List.length_cons] at hlen
    have : (Scan.start t i).cursor.pos = i := rfl
    omega
  have hmove : move (stopping t.length) (Scan.start t i) '{' r = .openBracket '{' := by
    simp [move, Move.next, Scan.start, Move.outside, Move.inScript, ScanOptions.isOpener]
  have hclosed : ¬ (Scan.start t i).closedAt?.isSome = true := Bool.false_ne_true
  rw [Steps, next?, if_neg (not_or.mpr ⟨hclosed, hlt⟩), hafter]
  dsimp only
  have hmode : (Scan.start t i).stack.mode = .normal := rfl
  rw [step_eq_apply, if_pos hmode, hmove]
  rfl

/-- The scan of a block walks under open frames to the end of the block. -/
theorem exists_walksOpen_of_blockEnd? (hr : t.drop i = '{' :: r) (h : t.blockEnd? i = some j) :
    ∃ s, WalksOpen t.length (intoBlock t i) s ∧ s.stack.frames = [] ∧ s.cursor.pos = j := by
  obtain ⟨s, hw, hrun, -⟩ := exists_walksOpen_run (inWhole_intoBlock hr)
  have hclosed : s.watched.closedAt? = some j := by
    rw [← hrun, ← run_eq_of_steps (steps_intoBlock hr), ← h, blockEnd?, Scan.ofTextWith, outcome]
    split
    · rfl
    · next hn => simpa using hn
  rw [watched] at hclosed
  dsimp only at hclosed
  split at hclosed
  · next hf => exact ⟨s, hw, hf, Option.some.inj hclosed⟩
  · cases hclosed

/-- Where a walk under open frames ends with nothing open, the block ends. -/
theorem blockScan_of_walksOpen (hr : t.drop i = '{' :: r)
    (hw : WalksOpen t.length (intoBlock t i) s) (hs : s.stack.frames = []) :
    t.blockScan i = ⟨s.issues.reverse, [], some s.cursor.pos⟩ := by
  rw [blockScan, Scan.ofTextWith, run_eq_of_steps (steps_intoBlock hr),
    run_watched_of_walksOpen (inWhole_intoBlock hr) hw hs, outcome, watched, if_pos hs]
  rfl

end Text

namespace Move

/-- A move that begins or ends a string or a comment opens and closes nothing. -/
theorem mode_or_frames_apply (s : ScanState) (m : Move) :
    (m.apply s).stack.mode = s.stack.mode ∨ (m.apply s).stack.frames = s.stack.frames := by
  cases m with
  | enter mode quote n => exact .inr rfl
  | leave n => exact .inr rfl
  | closeBracket opener x =>
    left
    simp only [apply, ScanState.advance, ScanState.closeBracket]
    split
    · rfl
    · split <;> rfl
  | closeTag name n =>
    left
    simp only [apply, ScanState.advance, ScanState.closeTag]
    split
    · rfl
    · split
      · rfl
      · split <;> rfl
  | beginChildren =>
    left
    simp only [apply, ScanState.advance, ScanState.beginChildren]
    split <;> rfl
  | _ => exact .inl rfl

end Move

namespace ScanState

variable {n m : Nat} {s t u : ScanState} {x : Char} {rest : Text}

theorem WalksOpen.grounded (hw : WalksOpen n s t) (hs : InWhole n s)
    (hg : Grounded s.stack.frames) :
    InWhole n t ∧ (t.stack.frames ≠ [] → Grounded t.stack.frames) := by
  induction hw with
  | refl => exact ⟨hs, fun _ => hg⟩
  | tail _ hst ih =>
    obtain ⟨hu, hgu⟩ := ih
    obtain ⟨x, rest, ha, rfl⟩ := hu.steps hst.2
    refine ⟨hu.apply _, fun hne => ?_⟩
    exact (Move.grounded_apply Move.fits_next (hgu hst.1)).resolve_right fun h => hne h.1

/-- Until nothing is open, the outermost frame is a bracket. So a closing bracket ends the walk. -/
theorem WalksOpen.exists_last (hw : WalksOpen n s t) (hs : InWhole n s)
    (hg : Grounded s.stack.frames) (ht : t.stack.frames = []) :
    ∃ (u : ScanState) (m : Move), WalksOpen n s u ∧ u.stack.frames ≠ [] ∧
      u.cursor.after ≠ [] ∧ u.stack.mode = .normal ∧
      m.length = 1 ∧ t = m.apply u := by
  have not_grounded {fs : List Frame} (hfs : fs = []) : ¬ Grounded fs := by
    rintro ⟨f, hf, -⟩
    rw [hfs] at hf
    cases hf
  cases hw.cases_tail with
  | inl he => exact absurd hg (not_grounded (he ▸ ht))
  | inr h =>
    obtain ⟨u, hu, hne, hst⟩ := h
    obtain ⟨hin, hground⟩ := WalksOpen.grounded hu hs hg
    obtain ⟨x, rest, ha, rfl⟩ := hin.steps hst
    have hfits : (u.moveAt x rest).Fits (whole 0) u.stack x := Move.fits_next
    obtain ⟨-, hlen, hmode, -⟩ :=
      (Move.grounded_apply hfits (hground hne)).resolve_left (not_grounded ht)
    exact ⟨u, _, hu, hne, by rw [ha]; exact List.cons_ne_nil x rest, hmode, hlen, rfl⟩

/-- Every other place of the walk comes before its end. -/
theorem WalksOpen.pos_lt (hw : WalksOpen n s t) (hs : InWhole n s) (hg : Grounded s.stack.frames)
    (ht : t.stack.frames = []) : s.cursor.pos < t.cursor.pos := by
  obtain ⟨u, m, hu, -, hafter, -, hlen, rfl⟩ := hw.exists_last hs hg ht
  have hle := Walks.pos_le hu.walks hs
  have hpos := List.length_pos_iff.mpr hafter
  rw [Move.cursor_apply, Cursor.pos_skip, hlen]
  omega

/-- The walk ends outside of strings and comments. -/
theorem WalksOpen.mode_eq (hw : WalksOpen n s t) (hs : InWhole n s) (hg : Grounded s.stack.frames)
    (ht : t.stack.frames = []) : t.stack.mode = .normal := by
  obtain ⟨u, m, -, hne, -, hmode, -, rfl⟩ := hw.exists_last hs hg ht
  rcases Move.mode_or_frames_apply u m with h | h
  · rw [h, hmode]
  · exact absurd (h ▸ ht) hne

/-! ### What stands behind the block -/

/-- Whether the move at a character does not depend on what follows it. -/
def standsAlone (x : Char) : Bool := x == '>' || x == ')' || x == ']' || x == '}'

/-- What is left of the text is nothing, or ends with such a character. -/
def EndsAlone (a : Text) : Prop := ∀ z ∈ a.getLast?, standsAlone z = true

theorem cases_of_standsAlone (h : standsAlone x = true) :
    x = '>' ∨ x = ')' ∨ x = ']' ∨ x = '}' := by
  simpa [standsAlone, or_assoc] using h

theorem stopsLooking_of_standsAlone (h : standsAlone x = true) : stopsLooking x = true := by
  rcases cases_of_standsAlone h with rfl | rfl | rfl | rfl <;> rfl

theorem EndsAlone.drop {a : Text} (h : EndsAlone a) (k : Nat) : EndsAlone (a.drop k) := by
  intro z hz
  rw [List.getLast?_drop] at hz
  split at hz
  · cases hz
  · exact h z hz

theorem EndsAlone.screens {a : Text} (h : EndsAlone a) (hne : a ≠ []) : Screens a := by
  have hlast : ∀ z ∈ a.getLast?, z ∈ a ∧ stopsLooking z = true := fun z hz =>
    ⟨List.mem_of_getLast? hz, stopsLooking_of_standsAlone (h z hz)⟩
  refine ⟨⟨a.getLast hne, hlast _ (List.getLast?_eq_some_getLast hne)⟩, fun hslash => ?_⟩
  obtain ⟨r, rfl⟩ := List.head?_eq_some_iff.mp hslash
  -- a slash does not stand alone, so it is not the last character
  cases r with
  | nil => exact absurd (h '/' rfl) (by decide)
  | cons y r =>
    refine ⟨(y :: r).getLast (List.cons_ne_nil y r), List.getLast_mem _, ?_⟩
    exact (hlast _ (by rw [List.getLast?_cons_cons]; exact List.getLast?_eq_some_getLast _)).2

end ScanState

namespace Move

open ScanState

variable {o : ScanOptions} {stack : BracketStack} {b : Bool} {x : Char} {y y' : Option Char}
  {rest rest' : Text}

theorem next_of_standsAlone (h : standsAlone x = true) :
    next o stack b x y rest = next o stack b x y' rest' := by
  have hslash : x ≠ '/' := by rintro rfl; cases h
  have hlt : x ≠ '<' := by rintro rfl; cases h
  have hstar : x ≠ '*' := by rintro rfl; cases h
  have hs : inScript o b x y rest = inScript o b x y' rest' := by
    simp only [inScript, hslash, hlt, false_and, and_false, if_false]
  unfold next
  cases stack.mode with
  | normal =>
    dsimp only
    unfold outside
    cases stack.frames with
    | nil => exact hs
    | cons f fs =>
      dsimp only
      split
      · cases f.context with
        | script => exact hs
        | attrs => simp only [inAttrs, hslash, false_and, if_false]
        | markup => simp only [inMarkup, hlt, if_false]
      · exact hs
  | blockComment => simp only [inBlockComment, hstar, false_and, if_false]
  | _ => rfl

end Move

section

open ScanState

variable {n m : Nat} {s s' t : ScanState} {a u v : Text}

/-- A step through what two texts have in common is a step of both walks, whatever follows there. -/
theorem Along.exists_steps (h : Along a u v s t) (hend : EndsAlone a) (hne : a ≠ [])
    (hs : InWhole n s) (ht : InWhole m t) (hst : Steps (whole n) s s') :
    ∃ t' a', Steps (whole m) t t' ∧ Along a' u v s' t' ∧ EndsAlone a' ∧
      s'.cursor.pos + a'.length = s.cursor.pos + a.length := by
  obtain ⟨y, rest, ha, rfl⟩ := hs.steps hst
  obtain ⟨x, rest', rfl⟩ := List.exists_cons_of_ne_nil hne
  obtain ⟨rfl, rfl⟩ : x = y ∧ rest' ++ u = rest := List.cons.inj (h.left.symm.trans ha)
  have hst' := ht.steps_moveAt (show t.cursor.after = x :: (rest' ++ v) from h.right)
  have halone : rest' = [] → standsAlone x = true := by
    rintro rfl
    exact hend x rfl
  have hmove : t.moveAt x (rest' ++ v) = s.moveAt x (rest' ++ u) := by
    by_cases hr : rest' = []
    · unfold moveAt
      rw [h.before, h.stack]
      exact Move.next_of_standsAlone (halone hr)
    · exact h.moveAt_eq ((hend.drop 1).screens hr)
  have hlen : (s.moveAt x (rest' ++ u)).length ≤ (x :: rest').length := by
    by_cases hr : rest' = []
    · have hself : s.moveAt x (rest' ++ u) = s.moveAt x [] := Move.next_of_standsAlone (halone hr)
      have hle : (s.moveAt x []).length ≤ ([] : Text).length + 1 :=
        Move.length_next_le (.inr (by rintro rfl; exact absurd (halone hr) (by decide)))
      rw [hself, hr]
      exact hle
    · exact Along.length_moveAt_le ((hend.drop 1).screens hr)
  rw [hmove] at hst'
  refine ⟨_, _, hst', h.apply hlen, hend.drop _, ?_⟩
  rw [Move.cursor_apply, Cursor.pos_skip, h.left, List.length_append, List.length_drop]
  omega

end

namespace ScanState

variable {n m : Nat} {s s' t : ScanState} {a u v : Text}

/-- A walk under open frames to the end of what two texts have in common is one of both texts. -/
theorem WalksOpen.along {e : ScanState} (hw : WalksOpen n s e) (he : e.stack.frames = [])
    (hs : InWhole n s) (ht : InWhole m t) (hg : s.stack.frames ≠ [] → Grounded s.stack.frames)
    (h : Along a u v s t) (hend : EndsAlone a)
    (hpos : e.cursor.pos = s.cursor.pos + a.length) :
    ∃ e', WalksOpen m t e' ∧ Along [] u v e e' := by
  induction hw using Relation.ReflTransGen.head_induction_on generalizing t a with
  | refl =>
    obtain rfl : a = [] := List.length_eq_zero_iff.mp (by omega)
    exact ⟨t, .refl, h⟩
  | @head s s' hst hw ih =>
    have hlt := WalksOpen.pos_lt (.head hst hw) hs (hg hst.1) he
    have hne : a ≠ [] := by
      rintro rfl
      rw [List.length_nil] at hpos
      omega
    obtain ⟨t', a', hst', h', hend', hlen⟩ := h.exists_steps hend hne hs ht hst.2
    have hs' := WalksOpen.grounded (.single hst) hs (hg hst.1)
    obtain ⟨e', hw', he'⟩ := ih hs'.1 (ht.walks (.single hst')) hs'.2 h' hend' (by omega)
    exact ⟨e', .head ⟨h.stack ▸ hst.1, hst'⟩ hw', he'⟩

/-! ### What stands before the brace -/

/-- Two places between which only what stands before a brace differs. -/
structure Beside (s t : ScanState) : Prop extends Alike s t where
  after : s.cursor.after = t.cursor.after
  before : ∃ w g h, s.cursor.before = w ++ '{' :: g ∧ t.cursor.before = w ++ '{' :: h

/-- Looking back does not pass the brace. -/
theorem expressionCanFollow_brace (w g h : Text) :
    expressionCanFollow (w ++ '{' :: g) = expressionCanFollow (w ++ '{' :: h) :=
  expressionCanFollow_append (by decide) rfl

theorem Beside.steps (h : Beside s t) (hs : InWhole n s) (ht : InWhole n t)
    (hst : Steps (whole n) s s') : ∃ t', Steps (whole n) t t' ∧ Beside s' t' := by
  obtain ⟨x, rest, ha, rfl⟩ := hs.steps hst
  obtain ⟨w, g, k, hbefore, hbefore'⟩ := h.before
  have ha' : t.cursor.after = x :: rest := h.after ▸ ha
  have hst' := ht.steps_moveAt ha'
  have hmove : t.moveAt x rest = s.moveAt x rest := by
    unfold moveAt
    rw [h.stack, hbefore, hbefore', expressionCanFollow_brace w k g]
  rw [hmove] at hst'
  refine ⟨_, hst', h.toAlike.apply (by rw [h.after]), ?_, ?_⟩
  · rw [Move.cursor_apply, Move.cursor_apply, Cursor.after_skip, Cursor.after_skip, h.after]
  · rw [Move.cursor_apply, Move.cursor_apply, Cursor.before_skip, Cursor.before_skip, h.after,
      hbefore, hbefore', ← List.append_assoc, ← List.append_assoc]
    exact ⟨_, g, k, rfl, rfl⟩

/-- A walk from behind a brace does not depend on what stands before it. -/
theorem Beside.walks (h : Beside s t) (hs : InWhole n s) (ht : InWhole n t)
    (hw : Walks (whole n) s s') : ∃ t', Walks (whole n) t t' ∧ Beside s' t' := by
  obtain ⟨t', hw', -, -, h'⟩ := hw.simulate
    (R := fun s t => InWhole n s ∧ InWhole n t ∧ Beside s t) (fun {s s' t} hst hR => by
      obtain ⟨t', hst', h'⟩ := hst.2.2.steps hst.1 hst.2.1 hR
      exact ⟨t', hst', hst.1.walks (.single hR), hst.2.1.walks (.single hst'), h'⟩) ⟨hs, ht, h⟩
  exact ⟨t', hw', h'⟩

end ScanState

section

open ScanState

variable {head block rest : Text}

/-- Behind a block a text can go on in any way: the walk through the block stays the same. -/
theorem Text.exists_walksOpen_of_block (rest' : Text)
    (hb : ∃ q x, block = '{' :: (q ++ [x]) ∧ (x = ')' ∨ x = ']' ∨ x = '}'))
    (h : (head ++ (block ++ rest)).blockEnd? head.length = some (head ++ block).length) :
    ∃ e, WalksOpen (head ++ (block ++ rest')).length
        (intoBlock (head ++ (block ++ rest')) head.length) e ∧
      e.stack.frames = [] ∧ e.stack.mode = .normal ∧ e.cursor.after = rest' ∧
      e.cursor.pos = (head ++ block).length ∧
      e.issues.reverse = ((head ++ (block ++ rest)).blockScan head.length).issues := by
  obtain ⟨q, x, rfl, hx⟩ := hb
  have hdrop (r : Text) : (head ++ ('{' :: (q ++ [x]) ++ r)).drop head.length =
      '{' :: (q ++ [x] ++ r) := List.drop_left ..
  have hcursor (r : Text) : (intoBlock (head ++ ('{' :: (q ++ [x]) ++ r)) head.length).cursor =
      ⟨head.length + 1, ['{'], q ++ [x] ++ r⟩ := by
    rw [intoBlock, Move.cursor_apply]
    exact Cursor.skip_one_of_after (hdrop r)
  have halong : Along (q ++ [x]) rest rest'
      (intoBlock (head ++ ('{' :: (q ++ [x]) ++ rest)) head.length)
      (intoBlock (head ++ ('{' :: (q ++ [x]) ++ rest')) head.length) :=
    { pos := by rw [hcursor, hcursor]
      stack := rfl
      issues := rfl
      closedAt? := rfl
      before := by rw [hcursor, hcursor]
      left := by rw [hcursor]
      right := by rw [hcursor] }
  have hend : EndsAlone (q ++ [x]) := by
    intro z hz
    rw [List.getLast?_concat] at hz
    obtain rfl := Option.some.inj hz
    rcases hx with rfl | rfl | rfl <;> rfl
  obtain ⟨s, hw, hs, hpos⟩ := exists_walksOpen_of_blockEnd? (hdrop rest) h
  have hin := inWhole_intoBlock (hdrop rest)
  have hin' := inWhole_intoBlock (hdrop rest')
  have hground := grounded_intoBlock (head ++ ('{' :: (q ++ [x]) ++ rest)) head.length
  obtain ⟨e, hwe, he⟩ := hw.along hs hin hin' (fun _ => hground) halong hend (by
    rw [hpos, hcursor]
    simp only [List.length_append, List.length_cons]
    omega)
  refine ⟨e, hwe, he.stack ▸ hs, ?_, ?_, he.pos ▸ hpos, ?_⟩
  · exact hwe.mode_eq hin' (grounded_intoBlock _ _) (he.stack ▸ hs)
  · exact he.right
  · rw [blockScan_of_walksOpen (hdrop rest) hw hs, he.issues]

/-- Behind a block a text can go on in any way: the block stays the same. -/
theorem Text.blockEnd?_of_block (rest' : Text)
    (hb : ∃ q x, block = '{' :: (q ++ [x]) ∧ (x = ')' ∨ x = ']' ∨ x = '}'))
    (h : (head ++ (block ++ rest)).blockEnd? head.length = some (head ++ block).length) :
    (head ++ (block ++ rest')).blockEnd? head.length = some (head ++ block).length := by
  obtain ⟨e, hw, he, -, -, hpos, -⟩ := exists_walksOpen_of_block rest' hb h
  obtain ⟨q, x, rfl, -⟩ := hb
  have hdrop : (head ++ ('{' :: (q ++ [x]) ++ rest')).drop head.length =
      '{' :: (q ++ [x] ++ rest') := List.drop_left ..
  rw [← closedAt?_blockScan, blockScan_of_walksOpen hdrop hw he, hpos]

end

end SnippetGate
