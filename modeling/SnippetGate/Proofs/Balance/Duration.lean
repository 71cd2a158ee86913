import SnippetGate.Proofs.Balance.Arrival
import SnippetGate.Proofs.Balance.Stopping

/-!
# How long a walk takes

A walk takes at most two steps for each character between its start and its limit. A step that does
not go forward closes a tag that is cut short. Directly around such a tag there is no other one
whose attributes are being read, so the step behind it goes forward. And no step lacks what it works
on: where a tag is opened its name can be read, and where attributes are read there is a tag that
they belong to.
-/

namespace SnippetGate

namespace Move

/-- The move at the opening tag whose `<` stands before `rest`, if a name can be read there. -/
def opening? (rest : Text) : Option Move :=
  if rest.head? = some '>' then some (openTag [] .children 2)
  else (tagName? rest).map fun name => openTag name .attrs (name.length + 1)

/-- Whether a move before `rest`, under the given frames, has what it works on. -/
def IsDefined (o : ScanOptions) (frames : List Frame) (rest : Text) : Move → Prop
  | openTag name phase n => opening? rest = some (openTag name phase n)
  | closeBracket opener x => o.openerOf? x = some opener
  | endTag _ => ∃ top ∈ frames.head?, top.isOpening = true
  | beginChildren => ∃ top ∈ frames.head?, top.isOpening = true
  | cutShort top => top ∈ frames.head? ∧ top.isOpening = true
  | stray top x => top ∈ frames.head? ∧ top.isOpening = true ∧ (o.openerOf? x).isSome = true
  | _ => True

variable {o : ScanOptions} {t rest : Text} {frames : List Frame} {x : Char} {y : Option Char}

/-! ### Names of tags that are opened -/

theorem opening?_eq_some (h : rest.head? = some '>' ∨ (tagName? rest).isSome = true) :
    opening? rest = some (opening rest) := by
  unfold opening? opening
  split
  · rfl
  · next hgt =>
    obtain ⟨name, hname⟩ := Option.isSome_iff_exists.mp (h.resolve_left hgt)
    rw [hname]
    rfl

/-- Whatever opens a tag is the move at an opening tag. -/
def OpensReadably (rest : Text) (m : Move) : Prop :=
  ∀ name phase n, m = openTag name phase n → opening? rest = some m

theorem opensReadably_opening (h : rest.head? = some '>' ∨ (tagName? rest).isSome = true) :
    OpensReadably rest (opening rest) := fun _ _ _ _ => opening?_eq_some h

theorem opensReadably_closing (r : Text) : OpensReadably rest (closing r) := by
  intro name phase n h
  unfold closing at h
  split at h <;> cases h

theorem opensReadably_inMarkup (hy : ∀ c ∈ y, rest.head? = some c) :
    OpensReadably rest (inMarkup x y rest) := by
  unfold inMarkup
  split
  · nofun
  split
  · split
    · exact opensReadably_closing _
    split
    · next hopen => exact opensReadably_opening (hopen.imp_left (hy _))
    · nofun
  · nofun

theorem opensReadably_inAttrs (top : Frame) : OpensReadably rest (inAttrs o top x y) := by
  unfold inAttrs
  repeat' split
  all_goals nofun

theorem opensReadably_inScript (invited : Bool) :
    OpensReadably rest (inScript o invited x y rest) := by
  unfold inScript
  split
  · nofun
  split
  · nofun
  split
  · nofun
  split
  · nofun
  split
  · nofun
  split
  · split
    · exact opensReadably_closing _
    split
    · next hopen => exact opensReadably_opening hopen.1
    · nofun
  · nofun

theorem opensReadably_next {stack : BracketStack} {invited : Bool}
    (hy : ∀ c ∈ y, rest.head? = some c) : OpensReadably rest (next o stack invited x y rest) := by
  unfold next
  split
  · unfold inString
    repeat' split
    all_goals nofun
  · unfold inLineComment
    split <;> nofun
  · unfold inBlockComment
    split <;> nofun
  unfold outside
  split
  · exact opensReadably_inScript invited
  split
  · split
    · exact opensReadably_inScript invited
    · exact opensReadably_inAttrs _
    · exact opensReadably_inMarkup hy
  · exact opensReadably_inScript invited

/-! ### Moves that do not go forward -/

theorem inAttrs_of_length_eq_zero {top : Frame} (h : (inAttrs o top x y).length = 0) :
    inAttrs o top x y = cutShort top := by
  unfold inAttrs at h ⊢
  repeat' split at h
  all_goals simp_all [length]

/-- A move that takes no character closes a tag that is cut short. -/
theorem exists_cutShort_of_length_eq_zero {stack : BracketStack} {invited : Bool}
    (h : (next o stack invited x y rest).length = 0) :
    ∃ top, next o stack invited x y rest = cutShort top := by
  obtain rfl : x = '<' := by
    by_contra hx
    exact absurd h (length_next_pos hx).ne'
  unfold next at h ⊢
  cases hm : stack.mode with
  | normal =>
    rw [hm] at h
    dsimp only at h ⊢
    unfold outside at h ⊢
    cases hf : stack.frames with
    | nil =>
      rw [hf] at h
      exact absurd h length_inScript_pos.ne'
    | cons top fs =>
      rw [hf] at h
      dsimp only at h ⊢
      split at h
      · next ho =>
        rw [if_pos ho]
        cases hc : top.context with
        | script =>
          rw [hc] at h
          exact absurd h length_inScript_pos.ne'
        | attrs =>
          rw [hc] at h
          exact ⟨top, inAttrs_of_length_eq_zero h⟩
        | markup =>
          rw [hc] at h
          exact absurd h length_inMarkup_pos.ne'
      · exact absurd h length_inScript_pos.ne'
  | string =>
    rw [hm] at h
    simp only [inString] at h
    repeat' split at h
    all_goals simp [length] at h
  | lineComment =>
    rw [hm] at h
    simp [inLineComment, length] at h
  | blockComment =>
    rw [hm] at h
    simp [inBlockComment, length] at h

end Move

namespace ScanState

open Move

variable {o : ScanOptions} {t rest : Text} {i : Nat} {s u v : ScanState} {x : Char}

/-- Where the walk goes on, the place lies before the limit and before the end of the text. -/
theorem Steps.pos_lt (h : Steps o s u) : s.cursor.pos < min o.limit s.cursor.stop := by
  rw [Steps, next?] at h
  split at h
  · cases h
  next hover =>
  split at h
  · cases h
  next ha =>
  rw [not_or, not_le] at hover
  refine lt_min hover.2 ?_
  rw [Cursor.stop, ha, List.length_cons]
  omega

theorem Steps.stop_eq (h : Steps o s u) : u.cursor.stop = s.cursor.stop := by
  obtain ⟨-, x, rest, -, rfl | rfl⟩ := h.exists_move
  · rw [cursor_apply, Cursor.stop_skip]
  · rw [cursor_noteBalance, cursor_apply, Cursor.stop_skip]

/-- A step that does not go forward closes the innermost frame, a tag that is cut short. -/
theorem Orderly.closes_of_pos_eq (h : Orderly o t i s) (hst : Steps o s u)
    (hpos : u.cursor.pos = s.cursor.pos) :
    u.cursor = s.cursor ∧ ∃ top, s.stack.frames = top :: u.stack.frames ∧ top.isOpening = true := by
  obtain ⟨-, x, rest, ha, hu⟩ := hst.exists_move
  have hcursor : u.cursor = s.cursor.skip (s.move o x rest).length := by
    rcases hu with rfl | rfl
    · rw [cursor_apply]
    · rw [cursor_noteBalance, cursor_apply]
  have hzero : (s.move o x rest).length = 0 := by
    rw [hcursor, Cursor.pos_skip, ha, List.length_cons] at hpos
    omega
  obtain ⟨top, htop⟩ := exists_cutShort_of_length_eq_zero hzero
  have hmove : s.move o x rest = cutShort top := htop
  obtain ⟨⟨x', rest', ha', -, hchange⟩, -⟩ := h.step hst
  obtain ⟨rfl, rfl⟩ := List.cons.inj (ha.symm.trans ha')
  rw [hmove] at hchange
  exact ⟨by rw [hcursor, hzero, Cursor.skip_zero], top, hchange⟩

/-- Directly around a tag whose attributes are being read there is no other such tag. -/
theorem Orderly.head_of_isOpening (h : Orderly o t i s) {top : Frame} {fs : List Frame}
    (hf : s.stack.frames = top :: fs) (htop : top.isOpening = true) :
    ∀ f ∈ fs.head?, f.isOpening = false := by
  intro f hm
  by_contra ho
  rw [Bool.not_eq_false] at ho
  have hbraced := h.nested.braced
  rw [hf] at hbraced
  rw [(List.isChain_cons.mp hbraced).1 f hm ho] at htop
  cases htop

/-- Noting the balance ends the walk at its place, or not at all. -/
theorem closedAt?_noteBalance (s : ScanState) (o : ScanOptions) :
    (s.noteBalance o).closedAt? = s.closedAt? ∨
      (s.noteBalance o).closedAt? = some s.cursor.pos := by
  unfold noteBalance
  split
  · exact .inl rfl
  split
  · exact .inl rfl
  split
  · exact .inr rfl
  · exact .inl rfl

/-- A walk that has not come to its end takes a step. -/
theorem exists_steps (hc : s.closedAt? = none) (hpos : s.cursor.pos < min o.limit s.cursor.stop) :
    ∃ u, Steps o s u := by
  obtain ⟨hlimit, hstop⟩ := lt_min_iff.mp hpos
  cases ha : s.cursor.after with
  | nil => simp [Cursor.stop, ha] at hstop
  | cons x rest => exact ⟨s.step o x rest, by simp [Steps, next?, hc, ha, Nat.not_le.mpr hlimit]⟩

/-- The step from one place to another goes forward. Otherwise it closes a tag that is cut short,
and unless all is closed and the walk ends with that, it is followed by a step that goes forward. -/
def GoesOn (o : ScanOptions) (s u : ScanState) : Prop :=
  s.cursor.pos < u.cursor.pos ∨
    u.cursor = s.cursor ∧
      (∃ top, s.stack.frames = top :: u.stack.frames ∧ top.isOpening = true) ∧
      (u.closedAt? = some u.cursor.pos ∨ ∃ v, Steps o u v ∧ u.cursor.pos < v.cursor.pos)

theorem Orderly.goesOn (h : Orderly o t i s) (hst : Steps o s u) : GoesOn o s u := by
  rcases hst.pos_le.lt_or_eq with hlt | heq
  · exact .inl hlt
  obtain ⟨hcursor, top, hf, htop⟩ := h.closes_of_pos_eq hst heq.symm
  refine .inr ⟨hcursor, ⟨top, hf, htop⟩, ?_⟩
  have hcases : u.closedAt? = none ∨ u.closedAt? = some u.cursor.pos := by
    obtain ⟨hnone, x, rest, -, rfl | rfl⟩ := hst.exists_move
    · exact .inl (by rw [closedAt?_apply, hnone])
    · rw [cursor_noteBalance]
      refine (closedAt?_noteBalance _ o).imp_left fun hc => ?_
      rw [hc, closedAt?_apply, hnone]
  rcases hcases with hnone | hclosed
  · obtain ⟨v, hv⟩ := exists_steps (o := o) hnone (hcursor ▸ hst.pos_lt)
    refine .inr ⟨v, hv, hv.pos_le.lt_of_ne fun hstay => ?_⟩
    -- a second tag that is cut short would have stood directly around the first
    obtain ⟨-, top', hf', htop'⟩ := (h.step hst).2.closes_of_pos_eq hv hstay.symm
    rw [hf'] at hf
    have hclear := h.head_of_isOpening hf htop top' rfl
    rw [htop'] at hclear
    cases hclear
  · exact .inl hclosed

/-! ### Nothing is lacking -/

/-- Among attributes the move is one for the innermost tag. -/
theorem move_of_attrs (hm : s.stack.mode = .normal) (ho : o.tracksTags = true)
    (hc : s.stack.context = .attrs) :
    ∃ top ∈ s.stack.top?, top.isOpening = true ∧
      s.move o x rest = inAttrs o top x (second? o s rest) := by
  rw [move, Move.next, hm]
  cases hf : s.stack.frames with
  | nil =>
    rw [BracketStack.context, hf] at hc
    cases hc
  | cons top fs =>
    rw [BracketStack.context, hf] at hc
    have htop : top.context = .attrs := hc
    refine ⟨top, by rw [BracketStack.top?, hf]; rfl, ?_, ?_⟩
    · unfold Frame.context at htop
      split at htop
      · cases htop
      · next hk => simpa [Frame.isOpening, hk] using htop
    · simp only [outside, ho, if_true, htop]

/-- The step that may follow has what it works on: its move is defined, and among attributes it is
the move for a tag that is open there. -/
def LacksNothing (o : ScanOptions) (s : ScanState) : Prop :=
  ∀ x rest, s.cursor.after = x :: rest →
    (s.move o x rest).IsDefined o s.stack.frames rest ∧
      (s.stack.mode = .normal → o.tracksTags = true → s.stack.context = .attrs →
        ∃ top ∈ s.stack.top?, top.isOpening = true ∧
          s.move o x rest = inAttrs o top x (second? o s rest))

theorem Orderly.lacksNothing (h : Orderly o t i s) : LacksNothing o s := by
  intro x rest ha
  refine ⟨?_, move_of_attrs⟩
  have hreads := h.reads ha
  have hopens : OpensReadably rest (s.move o x rest) :=
    opensReadably_next fun c hc => by
      rw [second?] at hc
      split at hc
      · exact hc
      · cases hc
  generalize s.move o x rest = m at hreads hopens ⊢
  cases m with
  | openTag name phase n => exact hopens name phase n rfl
  | closeBracket opener y => exact hreads.2.1
  | endTag n => exact hreads
  | beginChildren => exact hreads
  | cutShort top => exact hreads
  | stray top y => exact ⟨hreads.2.2.1, hreads.2.2.2, hreads.2.1⟩
  | _ => trivial

/-! ### The number of steps -/

/-- What is left to do up to an offset: every character up to there can open one frame, and each
frame can take a step that does not go forward to close. -/
def workUpTo (stop : Nat) (s : ScanState) : Nat :=
  2 * (stop - s.cursor.pos) + s.stack.frames.length

theorem Steps.workUpTo_lt (h : Steps o s u) {stop : Nat}
    (hstop : stop = min o.limit s.cursor.stop) :
    u.workUpTo stop < s.workUpTo stop := by
  have hpos := hstop ▸ h.pos_lt
  have hend := h.stop_eq
  rw [Steps, next?] at h
  split at h
  · cases h
  split at h
  · cases h
  next x rest ha =>
  obtain rfl := Option.some.inj h
  have hne : s.cursor.after ≠ [] := by simp [ha]
  unfold workUpTo
  rcases step_forward_or_closing hne o x rest with ⟨hafter, hopens⟩ | ⟨hcursor, hcloses⟩
  · rw [OpensOne] at hopens
    rw [Cursor.stop, Cursor.stop] at hend
    omega
  · rw [hcursor]
    omega

end ScanState

namespace Scan

open ScanState

variable {o : ScanOptions} {t : Text} {i k : Nat}

theorem stop_start (t : Text) (i : Nat) : (start t i).cursor.stop = i + (t.length - i) := by
  simp [start, Cursor.startingAt, Cursor.stop]

theorem stop_place (t : Text) (i : Nat) (o : ScanOptions) (k : Nat) :
    (place t i o k).cursor.stop = i + (t.length - i) :=
  (walks_place t i o k).keeps (P := fun s => s.cursor.stop = i + (t.length - i))
    (fun hst hs => hst.stop_eq.trans hs) (stop_start t i)

theorem place_succ_of_steps {u : ScanState} (h : Steps o (place t i o k) u) :
    place t i o (k + 1) = u := by
  rw [place_succ, h]
  rfl

/-- Steps taken and what is left to do are, together, never more than there was at the start. -/
theorem add_workUpTo_place {u : ScanState} (h : Steps o (place t i o k) u) :
    k + (place t i o k).workUpTo (min o.limit (i + (t.length - i))) ≤
      2 * (min o.limit (i + (t.length - i)) - i) := by
  induction k generalizing u with
  | zero => exact (Nat.zero_add _).le
  | succ k ih =>
    cases hk : next? o (place t i o k) with
    | none =>
      rw [place_succ, hk, Option.getD_none, Steps, hk] at h
      cases h
    | some v =>
      have hlt := Steps.workUpTo_lt (o := o) hk (by rw [stop_place])
      have := ih hk
      rw [place_succ_of_steps hk]
      omega

/-- A step is taken only as long as there are fewer than two for each character. -/
theorem lt_of_steps_place {u : ScanState} (h : Steps o (place t i o k) u) :
    k < 2 * (min o.limit t.length - i) := by
  have hle := add_workUpTo_place h
  have hpos := h.pos_lt
  rw [stop_place] at hpos
  unfold workUpTo at hle
  omega

/-- Once a scan has ended it stays at its place. -/
theorem next?_place_of_le {l : Nat} (h : next? o (place t i o k) = none) (hl : k ≤ l) :
    next? o (place t i o l) = none := by
  induction l, hl using Nat.le_induction with
  | base => exact h
  | succ l _ ih => rwa [place_succ, ih, Option.getD_none]

/-- A scan comes to its end after a number of steps that is at most twice the number of
characters. -/
theorem exists_place_eq_run (t : Text) (i : Nat) (o : ScanOptions) :
    ∃ k ≤ 2 * (min o.limit t.length - i), place t i o k = run o (start t i) ∧
      ∀ l, (next? o (place t i o l)).isSome = true ↔ l < k := by
  have hends : next? o (place t i o (2 * (min o.limit t.length - i))) = none := by
    rw [← Option.not_isSome_iff_eq_none, Option.isSome_iff_exists]
    rintro ⟨u, hu⟩
    exact absurd (lt_of_steps_place hu) (lt_irrefl _)
  have hexists : ∃ k, next? o (place t i o k) = none := ⟨_, hends⟩
  refine ⟨Nat.find hexists, Nat.find_min' hexists hends, ?_, fun l => ?_⟩
  · rw [run_eq_of_walks (walks_place t i o _), run_eq_self (Nat.find_spec hexists)]
  · rw [← not_iff_not, Option.not_isSome_iff_eq_none, not_lt]
    exact ⟨fun h => Nat.find_min' hexists h, next?_place_of_le (Nat.find_spec hexists)⟩

/-- For all options and wherever it starts, a scan comes to its end, and after at most two steps for
each character between its start and its limit. A step that does not go forward closes a tag that is
cut short, and the step behind it goes forward. And no step lacks what it works on. -/
theorem ends_within (t : Text) (i : Nat) (o : ScanOptions) :
    (∃ k ≤ 2 * (min o.limit t.length - i), place t i o k = run o (start t i) ∧
      ∀ l, (next? o (place t i o l)).isSome = true ↔ l < k) ∧
    ∀ s, Walks o (start t i) s → LacksNothing o s ∧ ∀ u, Steps o s u → GoesOn o s u :=
  ⟨exists_place_eq_run t i o, fun _ hs =>
    ⟨hs.orderly.lacksNothing, fun _ hst => hs.orderly.goesOn hst⟩⟩

theorem ends_within_cutShort :
    let t := "<x><a<b<c".toList
    let s := place t 0 (whole 9) 3
    s.stack.frames.map Frame.display = ["<a>".toList, "<x>".toList] ∧
      (place t 0 (whole 9) 4).cursor = s.cursor ∧
      (∃ k ≤ 2 * (min 9 t.length - 0), place t 0 (whole 9) k = run (whole 9) (start t 0) ∧
        ∀ l, (next? (whole 9) (place t 0 (whole 9) l)).isSome = true ↔ l < k) ∧
      LacksNothing (whole 9) s ∧ ∀ u, Steps (whole 9) s u → GoesOn (whole 9) s u := by
  intro t s
  have hframes : s.stack.frames.map Frame.display = ["<a>".toList, "<x>".toList] := by
    decide +kernel
  have hstays : (place t 0 (whole 9) 4).cursor = s.cursor := by decide +kernel
  obtain ⟨hlength, hwalks⟩ := ends_within t 0 (whole 9)
  exact ⟨hframes, hstays, hlength, hwalks s (walks_place t 0 (whole 9) 3)⟩

end Scan

end SnippetGate
