import SnippetGate.Proofs.Balance.Walk

/-!
# A scan that starts farther on

A scan that starts in the middle of a text sees nothing of what stands before. So it makes the same
moves as the scan of the rest of the text alone, with all offsets shifted.
-/

namespace SnippetGate

/-! ### Shifted places -/

/-- The place with other offsets. -/
def Cursor.shift (d : Nat) (c : Cursor) : Cursor := { c with pos := c.pos + d }

namespace Frame

/-- The frame farther on in a text. -/
def shift (d : Nat) (f : Frame) : Frame := { f with pos := f.pos + d }

@[simp] theorem kind_shift (d : Nat) (f : Frame) : (f.shift d).kind = f.kind := rfl
@[simp] theorem token_shift (d : Nat) (f : Frame) : (f.shift d).token = f.token := rfl
@[simp] theorem pos_shift (d : Nat) (f : Frame) : (f.shift d).pos = f.pos + d := rfl
@[simp] theorem context_shift (d : Nat) (f : Frame) : (f.shift d).context = f.context := rfl
@[simp] theorem isOpening_shift (d : Nat) (f : Frame) : (f.shift d).isOpening = f.isOpening := rfl

end Frame

/-- The same cause farther on in a text. A cause that is told by its line stays as it is. -/
def Imbalance.shift (d : Nat) : Imbalance → Imbalance
  | .mismatch opener closer deeper => .mismatch (opener.shift d) closer deeper
  | .unterminatedTag opener => .unterminatedTag (opener.shift d)
  | .unclosed frames => .unclosed (frames.map (Frame.shift d))
  | .unmatched closer => .unmatched closer
  | .unterminatedString quote line => .unterminatedString quote line
  | .unterminatedComment line => .unterminatedComment line

/-- The same issue farther on in a text. -/
def Issue.shift (d : Nat) (i : Issue) : Issue :=
  ⟨i.cause.shift d, i.pos + d, i.closerEnd?.map (· + d)⟩

/-- The same stack farther on in a text. -/
def BracketStack.shift (d : Nat) (s : BracketStack) : BracketStack :=
  { s with frames := s.frames.map (Frame.shift d), modeStart := s.modeStart.map (· + d) }

/-- The same options for a text with `d` characters more before it. -/
def ScanOptions.shift (d : Nat) (o : ScanOptions) : ScanOptions := { o with limit := o.limit + d }

/-- The same place of a walk farther on in a text. -/
def ScanState.shift (d : Nat) (s : ScanState) : ScanState where
  cursor := s.cursor.shift d
  stack := s.stack.shift d
  issues := s.issues.map (Issue.shift d)
  opened := s.opened
  closedAt? := s.closedAt?.map (· + d)

/-- The same move farther on in a text. -/
def Move.shift (d : Nat) : Move → Move
  | cutShort top => cutShort (top.shift d)
  | stray top x => stray (top.shift d) x
  | m => m

theorem Cursor.skip_shift (d n : Nat) (c : Cursor) : (c.shift d).skip n = (c.skip n).shift d := by
  induction n generalizing c with
  | zero => rfl
  | succ n ih =>
    have hnext : (c.shift d).next = c.next.shift d := by
      obtain ⟨p, b, _ | ⟨x, r⟩⟩ := c
      · rfl
      · simp only [shift, next, Nat.add_right_comm]
    rw [skip_succ, skip_succ, hnext, ih]

theorem Issue.withOpened_shift (d p : Nat) (i : Issue) :
    (i.shift d).withOpened (p + d) = (i.withOpened p).shift d := by
  obtain ⟨cause, pos, stop?⟩ := i
  cases cause with
  | mismatch f closer deeper =>
    have hpos : (f.pos + d == p + d) = (f.pos == p) := by
      rw [Bool.eq_iff_iff, beq_iff_eq, beq_iff_eq, Nat.add_right_cancel_iff]
    simp only [withOpened, shift, Imbalance.shift, Frame.isOpening_shift, Frame.pos_shift, hpos]
    split <;> rfl
  | _ => rfl

namespace ScanState

variable {o : ScanOptions} {s : ScanState} {d : Nat}

theorem advance_shift (s : ScanState) (n : Nat) :
    (s.shift d).advance n = (s.advance n).shift d := by
  simp only [advance, shift, Cursor.skip_shift]

theorem pop_shift (s : ScanState) : (s.shift d).pop = s.pop.shift d := by
  simp only [pop, shift, BracketStack.pop, BracketStack.shift, List.map_tail]

theorem report_shift (s : ScanState) (i : Issue) :
    (s.shift d).report (i.shift d) = (s.report i).shift d := rfl

theorem closeBracket_shift (s : ScanState) (opener x : Char) :
    (s.shift d).closeBracket opener x = (s.closeBracket opener x).shift d := by
  have hstop : s.cursor.pos + d + 1 = s.cursor.pos + 1 + d := Nat.add_right_comm ..
  unfold closeBracket
  cases hf : s.stack.frames with
  | nil =>
    simp [shift, BracketStack.shift, Cursor.shift, hf, report, Issue.shift, Imbalance.shift, hstop]
  | cons top fs =>
    simp only [shift, BracketStack.shift, Cursor.shift, hf, List.map_cons, Frame.kind_shift,
      Frame.token_shift, hstop]
    split
    · simp [pop, BracketStack.pop, hf]
    · simp [pop, BracketStack.pop, report, hf, Issue.shift, Imbalance.shift]

theorem closeTag_shift (s : ScanState) (name : Text) (stop : Nat) :
    (s.shift d).closeTag name (stop + d) = (s.closeTag name stop).shift d := by
  unfold closeTag
  have hsplit : splitAtTag? name (s.shift d).stack.frames = _ :=
    splitAtTag?_map (Frame.kind_shift d) (Frame.token_shift d) name s.stack.frames
  rw [hsplit]
  cases splitAtTag? name s.stack.frames with
  | some parts =>
    simp only [shift, BracketStack.shift, Cursor.shift, Option.map_some, List.map_append,
      List.map_reverse, List.map_map]
    rfl
  | none =>
    dsimp only [Option.map_none]
    cases hf : s.stack.frames with
    | nil =>
      simp [shift, BracketStack.shift, Cursor.shift, hf, report, Issue.shift, Imbalance.shift]
    | cons top fs =>
      simp only [shift, BracketStack.shift, Cursor.shift, hf, List.map_cons, Frame.kind_shift]
      split
      · simp [pop, BracketStack.pop, report, hf, Issue.shift, Imbalance.shift]
      · simp [report, hf, Issue.shift, Imbalance.shift]

theorem beginChildren_shift (s : ScanState) :
    (s.shift d).beginChildren = s.beginChildren.shift d := by
  unfold beginChildren
  cases hf : s.stack.frames with
  | nil => simp [shift, BracketStack.shift, hf]
  | cons top fs =>
    simp only [shift, BracketStack.shift, hf, List.map_cons, Frame.pos_shift, List.map_map]
    congr 1
    refine List.map_congr_left fun i _ => ?_
    exact Issue.withOpened_shift d top.pos i

theorem noteBalance_shift (s : ScanState) :
    (s.shift d).noteBalance (o.shift d) = (s.noteBalance o).shift d := by
  have hframes : (s.shift d).stack.frames.isEmpty = s.stack.frames.isEmpty := List.isEmpty_map
  unfold noteBalance
  rw [hframes, apply_ite (shift d), apply_ite (shift d), apply_ite (shift d)]
  rfl

end ScanState

/-! ### Shifted steps -/

namespace Move

variable {o : ScanOptions} {d : Nat}

theorem apply_shift (s : ScanState) (m : Move) :
    (m.shift d).apply (s.shift d) = (m.apply s).shift d := by
  cases m with
  | closeBracket opener x =>
    simp only [shift, apply, ScanState.closeBracket_shift, ScanState.advance_shift]
  | closeTag name n =>
    have hstop : (s.shift d).cursor.pos + n = s.cursor.pos + n + d := Nat.add_right_comm ..
    simp only [shift, apply, hstop, ScanState.closeTag_shift, ScanState.advance_shift]
  | beginChildren =>
    simp only [shift, apply, ScanState.beginChildren_shift, ScanState.advance_shift]
  | endTag n => simp only [shift, apply, ScanState.pop_shift, ScanState.advance_shift]
  | cutShort top => exact ScanState.pop_shift (s.report ⟨.unterminatedTag top, top.pos, none⟩)
  | stray top x =>
    have hstop : s.cursor.pos + d + 1 = s.cursor.pos + 1 + d := Nat.add_right_comm ..
    simp only [shift, apply]
    rw [← ScanState.advance_shift, ← ScanState.report_shift]
    simp [ScanState.shift, Cursor.shift, Issue.shift, Imbalance.shift, hstop]
  | pass n => exact ScanState.advance_shift s n
  | enter mode quote n => exact ScanState.advance_shift (s.enter mode quote) n
  | leave n => exact ScanState.advance_shift s.leave n
  | openBracket x => exact ScanState.advance_shift (s.push (.bracket x s.cursor.pos)) 1
  | openTag name phase n =>
    exact ScanState.advance_shift (s.push ⟨.tag, name, s.cursor.pos, phase⟩) n

theorem shift_opening (rest : Text) : (opening rest).shift d = opening rest := by
  unfold opening
  split <;> rfl

theorem shift_closing (rest : Text) : (closing rest).shift d = closing rest := by
  unfold closing
  split <;> rfl

theorem shift_inMarkup (x : Char) (y : Option Char) (rest : Text) :
    (inMarkup x y rest).shift d = inMarkup x y rest := by
  unfold inMarkup
  split
  · rfl
  · split
    · split
      · exact shift_closing rest.tail
      · split
        · exact shift_opening rest
        · rfl
    · rfl

theorem shift_inScript (b : Bool) (x : Char) (y : Option Char) (rest : Text) :
    (inScript o b x y rest).shift d = inScript o b x y rest := by
  unfold inScript
  repeat' split
  all_goals first
    | rfl
    | exact shift_closing rest.tail
    | exact shift_opening rest

theorem inAttrs_shift (top : Frame) (x : Char) (y : Option Char) :
    inAttrs o (top.shift d) x y = (inAttrs o top x y).shift d := by
  unfold inAttrs
  rw [Frame.token_shift]
  repeat' split
  all_goals rfl

theorem outside_shift (fs : List Frame) (b : Bool) (x : Char) (y : Option Char) (rest : Text) :
    outside (o.shift d) (fs.map (Frame.shift d)) b x y rest =
      (outside o fs b x y rest).shift d := by
  have hscript : (inScript o b x y rest).shift d = inScript (o.shift d) b x y rest :=
    shift_inScript b x y rest
  cases fs with
  | nil => exact hscript.symm
  | cons top fs =>
    have htracks : (o.shift d).tracksTags = o.tracksTags := rfl
    simp only [outside, List.map_cons, Frame.context_shift, htracks]
    split
    · cases top.context with
      | script => exact hscript.symm
      | attrs => exact inAttrs_shift top x y
      | markup => exact (shift_inMarkup x y rest).symm
    · exact hscript.symm

/-- The same decision is made farther on in a text. -/
theorem next_shift (stack : BracketStack) (b : Bool) (x : Char) (y : Option Char) (rest : Text) :
    next (o.shift d) (stack.shift d) b x y rest = (next o stack b x y rest).shift d := by
  unfold next
  dsimp only [BracketStack.shift]
  cases stack.mode with
  | normal => exact outside_shift stack.frames b x y rest
  | string =>
    dsimp only
    unfold inString
    repeat' split
    all_goals rfl
  | lineComment =>
    dsimp only
    unfold inLineComment
    split <;> rfl
  | blockComment =>
    dsimp only
    unfold inBlockComment
    split <;> rfl

end Move

namespace ScanState

variable {o : ScanOptions} {s : ScanState} {d : Nat}

theorem step_shift (s : ScanState) (x : Char) (rest : Text) :
    step (o.shift d) (s.shift d) x rest = (step o s x rest).shift d := by
  have hsecond : second? (o.shift d) (s.shift d) rest = second? o s rest := by
    have hlt : s.cursor.pos + d + 1 < o.limit + d ↔ s.cursor.pos + 1 < o.limit := by omega
    simp only [second?, shift, Cursor.shift, ScanOptions.shift, hlt]
  have hmove : move (o.shift d) (s.shift d) x rest = (move o s x rest).shift d := by
    unfold move
    rw [hsecond]
    exact Move.next_shift s.stack _ x _ rest
  have hmode : (s.shift d).stack.mode = s.stack.mode := rfl
  rw [step_eq_apply, step_eq_apply, hmove, Move.apply_shift, noteBalance_shift, hmode]
  split <;> rfl

theorem next?_shift (s : ScanState) :
    next? (o.shift d) (s.shift d) = (next? o s).map (shift d) := by
  have hend : (s.shift d).closedAt?.isSome ∨ (o.shift d).limit ≤ (s.shift d).cursor.pos ↔
      s.closedAt?.isSome ∨ o.limit ≤ s.cursor.pos := by
    simp only [shift, Cursor.shift, ScanOptions.shift, Option.isSome_map, Nat.add_le_add_iff_right]
  have hafter : (s.shift d).cursor.after = s.cursor.after := rfl
  unfold next?
  rw [hafter]
  by_cases hstop : s.closedAt?.isSome ∨ o.limit ≤ s.cursor.pos
  · rw [if_pos hstop, if_pos (hend.mpr hstop)]
    rfl
  · rw [if_neg hstop, if_neg (mt hend.mp hstop)]
    cases s.cursor.after with
    | nil => rfl
    | cons x rest => exact congrArg some (step_shift s x rest)

theorem run_shift (s : ScanState) : run (o.shift d) (s.shift d) = (run o s).shift d := by
  induction s using run.induct o with
  | case1 s h => rw [run_eq_self h, run_eq_self (by rw [next?_shift, h]; rfl)]
  | case2 s u h ih =>
    have hstep : Steps (o.shift d) (s.shift d) (u.shift d) := by rw [Steps, next?_shift, h]; rfl
    rw [run_eq_of_steps h, run_eq_of_steps hstep, ih]

end ScanState

/-! ### Shifted blocks -/

/-- The scan of the block whose brace stands at offset `i`. -/
def Text.blockScan (t : Text) (i : Nat) : Scan :=
  Scan.ofTextWith t i { limit := t.length, stopsWhenBalanced := true }

theorem Text.closedAt?_blockScan (t : Text) (i : Nat) : (t.blockScan i).closedAt? = t.blockEnd? i :=
  rfl

theorem Scan.start_append (p t : Text) (i : Nat) :
    Scan.start (p ++ t) (p.length + i) = (Scan.start t i).shift p.length := by
  have hcursor : Cursor.startingAt (p ++ t) (p.length + i) =
      (Cursor.startingAt t i).shift p.length := by
    rw [Cursor.startingAt, ← List.drop_drop, List.drop_left, Nat.add_comm]
    rfl
  rw [start, hcursor]
  rfl

/-- A block ends at the same place, and with the same issues, whatever stands before it. -/
theorem Text.blockScan_append (p t : Text) (i : Nat) :
    (p ++ t).blockEnd? (p.length + i) = (t.blockEnd? i).map (· + p.length) ∧
      ((t.blockEnd? i).isSome = true → ((p ++ t).blockScan (p.length + i)).issues =
        (t.blockScan i).issues.map (Issue.shift p.length)) := by
  have hrun : ScanState.run { limit := (p ++ t).length, stopsWhenBalanced := true }
      (Scan.start (p ++ t) (p.length + i)) = (ScanState.run
        { limit := t.length, stopsWhenBalanced := true } (Scan.start t i)).shift p.length := by
    have hlimit : (p ++ t).length = t.length + p.length := by
      rw [List.length_append, Nat.add_comm]
    rw [Scan.start_append, hlimit, ← ScanState.run_shift]
    rfl
  unfold blockEnd? blockScan Scan.ofTextWith
  rw [hrun]
  generalize ScanState.run _ (Scan.start t i) = s
  unfold ScanState.outcome
  cases hc : s.closedAt? with
  | none => simp [ScanState.shift, hc]
  | some j => simp [ScanState.shift, hc]

end SnippetGate
