import SnippetGate.Proofs.Balance.Move
import SnippetGate.Proofs.Text.Cursor

/-!
# Walks

A walk is a sequence of steps. Whatever a step keeps, a walk keeps, and with it the scan. Most of
what is said of scans is said of those of a whole text, with all brackets and with tags.
-/

namespace SnippetGate

namespace ScanState

/-- One step of a walk leads from a place to another. -/
def Steps (o : ScanOptions) (s t : ScanState) : Prop := next? o s = some t

/-- A walk leads from a place to another. -/
def Walks (o : ScanOptions) : ScanState → ScanState → Prop := Relation.ReflTransGen (Steps o)

variable {o : ScanOptions} {s t u : ScanState}

theorem run_eq_self (h : next? o s = none) : run o s = s := by
  rw [run]
  split
  · rfl
  · next ht => simp [h] at ht

theorem run_eq_of_steps (h : Steps o s t) : run o s = run o t := by
  rw [run]
  split
  · next hn => simp [Steps, hn] at h
  · next u hu =>
    obtain rfl : u = t := Option.some.inj (hu.symm.trans h)
    rfl

theorem run_eq_of_walks (h : Walks o s t) : run o s = run o t := by
  induction h with
  | refl => rfl
  | tail _ hstep ih => rw [ih, run_eq_of_steps hstep]

/-- A walk ends where no step is left. -/
theorem walks_run_and_next? (o : ScanOptions) (s : ScanState) :
    Walks o s (run o s) ∧ next? o (run o s) = none := by
  induction s using run.induct o with
  | case1 s h => rw [run_eq_self h]; exact ⟨.refl, h⟩
  | case2 s t h ih =>
    rw [run_eq_of_steps h]
    exact ⟨.head h ih.1, ih.2⟩

theorem walks_run (o : ScanOptions) (s : ScanState) : Walks o s (run o s) :=
  (walks_run_and_next? o s).1

theorem next?_run (o : ScanOptions) (s : ScanState) : next? o (run o s) = none :=
  (walks_run_and_next? o s).2

/-- Walks from one place are prefixes of each other. -/
theorem Walks.total (ht : Walks o s t) (hu : Walks o s u) : Walks o t u ∨ Walks o u t :=
  Relation.ReflTransGen.total_of_right_unique
    (fun _ _ _ h h' => Option.some.inj (h.symm.trans h')) ht hu

/-- What every step keeps, a walk keeps. -/
theorem Walks.keeps {P : ScanState → Prop} (step : ∀ {s t}, Steps o s t → P s → P t)
    (h : Walks o s t) (hs : P s) : P t := by
  induction h with
  | refl => exact hs
  | tail _ hstep ih => exact step hstep ih

/-- If each step of one walk is matched by a step of another, so is the whole walk. -/
theorem Walks.simulate {o' : ScanOptions} {R : ScanState → ScanState → Prop} {s' : ScanState}
    (step : ∀ {s s' t}, R s t → Steps o s s' → ∃ t', Steps o' t t' ∧ R s' t') (h : R s t)
    (hw : Walks o s s') : ∃ t', Walks o' t t' ∧ R s' t' := by
  induction hw with
  | refl => exact ⟨t, .refl, h⟩
  | tail _ hst ih =>
    obtain ⟨t', hw', h'⟩ := ih
    obtain ⟨t'', hst', h''⟩ := step h' hst
    exact ⟨t'', hw'.tail hst', h''⟩

/-! ### Scans of a whole text -/

/-- The options of a scan of a whole text of length `n`. -/
abbrev whole (n : Nat) : ScanOptions := { limit := n }

theorem second?_of_stop {s : ScanState} {x : Char} {rest : Text}
    (ha : s.cursor.after = x :: rest) (hn : s.cursor.stop = o.limit) :
    second? o s rest = rest.head? := by
  have hlen : s.cursor.pos + (rest.length + 1) = o.limit := by
    rw [← hn, Cursor.stop, ha, List.length_cons]
  unfold second?
  split
  · rfl
  · cases rest with
    | nil => rfl
    | cons y r => rw [List.length_cons] at hlen; omega

/-- The move at the next character of a whole text. -/
def moveAt (s : ScanState) (x : Char) (rest : Text) : Move :=
  Move.next (whole 0) s.stack (expressionCanFollow s.cursor.before) x rest.head? rest

/-- A place of a walk whose limit is the end of the text. -/
structure ToEnd (o : ScanOptions) (s : ScanState) : Prop where
  stop : s.cursor.stop = o.limit
  closedAt? : s.closedAt? = none

/-- A step of a walk to the end of the text is the move at the next character, if no balance is
noted there. -/
theorem ToEnd.next? {x : Char} {rest : Text} (h : ToEnd o s) (ha : s.cursor.after = x :: rest)
    (hb : o.stopsWhenBalanced = false ∨ s.stack.mode ≠ .normal) :
    next? o s = some ((Move.next o s.stack (expressionCanFollow s.cursor.before) x rest.head?
      rest).apply s) := by
  have hlt : ¬ o.limit ≤ s.cursor.pos := by
    rw [← h.stop, Cursor.stop, ha, List.length_cons]
    omega
  have hstep : step o s x rest = (move o s x rest).apply s := by
    rw [step_eq_apply]
    rcases hb with hb | hb
    · simp [noteBalance, hb]
    · exact if_neg hb
  simp only [ScanState.next?, h.closedAt?, ha, hlt, Option.isSome_none, Bool.false_eq_true, or_self,
    if_false, hstep, move, second?_of_stop ha h.stop]

/-- Where the text ends no step is left. -/
theorem next?_of_after (ha : s.cursor.after = []) : next? o s = none := by
  simp [next?, ha]

/-- A step through a whole text is the move at the next character. -/
theorem next?_whole {s : ScanState} {x : Char} {rest : Text} {n : Nat}
    (ha : s.cursor.after = x :: rest) (hn : s.cursor.stop = n) (hc : s.closedAt? = none) :
    next? (whole n) s = some ((s.moveAt x rest).apply s) :=
  ToEnd.next? (o := whole n) ⟨hn, hc⟩ ha (.inl rfl)

theorem next?_whole_eq_none {s : ScanState} {n : Nat} (hn : s.cursor.stop = n)
    (hc : s.closedAt? = none) : next? (whole n) s = none ↔ s.cursor.after = [] := by
  cases ha : s.cursor.after with
  | nil => simp [next?, ha]
  | cons x rest => simp [next?_whole ha hn hc]

end ScanState

namespace Move

open ScanState

@[simp] theorem closedAt?_apply (s : ScanState) (m : Move) :
    (m.apply s).closedAt? = s.closedAt? := by
  cases m with
  | closeBracket opener x =>
    simp only [apply, advance, ScanState.closeBracket]
    split
    · rfl
    · split <;> rfl
  | closeTag name n =>
    simp only [apply, advance, ScanState.closeTag]
    split
    · rfl
    · split
      · rfl
      · split <;> rfl
  | beginChildren =>
    simp only [apply, advance, ScanState.beginChildren]
    split <;> rfl
  | _ => rfl

end Move

namespace ScanState

variable {n : Nat} {s t : ScanState}

/-- A place of a scan of a whole text of length `n`. -/
structure InWhole (n : Nat) (s : ScanState) : Prop where
  stop : s.cursor.stop = n
  closedAt? : s.closedAt? = none

theorem InWhole.apply (h : InWhole n s) (m : Move) : InWhole n (m.apply s) :=
  ⟨by rw [Move.cursor_apply, Cursor.stop_skip, h.stop],
    by rw [Move.closedAt?_apply, h.closedAt?]⟩

/-- A step through a whole text makes the move at some character. -/
theorem InWhole.steps (h : InWhole n s) (hst : Steps (whole n) s t) :
    ∃ x rest, s.cursor.after = x :: rest ∧ t = (s.moveAt x rest).apply s := by
  cases ha : s.cursor.after with
  | nil => simp [Steps, (next?_whole_eq_none h.stop h.closedAt?).mpr ha] at hst
  | cons x rest =>
    rw [Steps, next?_whole ha h.stop h.closedAt?] at hst
    exact ⟨x, rest, rfl, (Option.some.inj hst).symm⟩

theorem InWhole.steps_moveAt (h : InWhole n s) {x : Char} {rest : Text}
    (ha : s.cursor.after = x :: rest) : Steps (whole n) s ((s.moveAt x rest).apply s) :=
  next?_whole ha h.stop h.closedAt?

theorem InWhole.walks (h : InWhole n s) (hst : Walks (whole n) s t) : InWhole n t := by
  refine hst.keeps (fun {s t} hstep hs => ?_) h
  obtain ⟨x, rest, -, rfl⟩ := hs.steps hstep
  exact hs.apply _

theorem inWhole_start (t : Text) : InWhole t.length (Scan.start t 0) :=
  ⟨Cursor.stop_ofText t, rfl⟩

/-- No walk leads on from the end of a text. -/
theorem InWhole.eq_of_walks (h : InWhole n s) (ha : s.cursor.after = [])
    (hw : Walks (whole n) s t) : s = t := by
  rcases Relation.ReflTransGen.cases_head hw with he | ⟨u, hst, -⟩
  · exact he
  · simp [Steps, (next?_whole_eq_none h.stop h.closedAt?).mpr ha] at hst

/-- A scan ends where a walk comes to the end of the text. -/
theorem InWhole.run_eq_of_after (h : InWhole n s) (hw : Walks (whole n) s t)
    (ha : t.cursor.after = []) : run (whole n) s = t := by
  have ht := h.walks hw
  rw [run_eq_of_walks hw, run_eq_self ((next?_whole_eq_none ht.stop ht.closedAt?).mpr ha)]

/-- A scan comes to the end of the text. -/
theorem InWhole.after_run (h : InWhole n s) : (run (whole n) s).cursor.after = [] := by
  have hr := h.walks (walks_run (whole n) s)
  exact (next?_whole_eq_none hr.stop hr.closedAt?).mp (next?_run _ s)

/-- What the moves of a scan keep holds where the scan ends, and all characters are read there. -/
theorem run_whole {P : ScanState → Prop} (h : InWhole n s) (hs : P s)
    (move : ∀ {s x rest}, InWhole n s → s.cursor.after = x :: rest → P s →
      P ((s.moveAt x rest).apply s)) :
    P (run (whole n) s) ∧ (run (whole n) s).cursor.after = [] ∧ InWhole n (run (whole n) s) := by
  have hw := walks_run (whole n) s
  have hin := h.walks hw
  refine ⟨?_, h.after_run, hin⟩
  have both := hw.keeps (P := fun s => InWhole n s ∧ P s) (fun {s t} hstep hs => by
    obtain ⟨x, rest, ha, rfl⟩ := hs.1.steps hstep
    exact ⟨hs.1.apply _, move hs.1 ha hs.2⟩) ⟨h, hs⟩
  exact both.2

/-- A walk that finds nothing wrong ends outside of strings and block comments, with nothing
open. -/
theorem of_isBalanced_outcome {t : Text} (hc : s.closedAt? = none)
    (h : (s.outcome t).isBalanced = true) : s.issues = [] ∧
      (s.stack.mode = .normal ∨ s.stack.mode = .lineComment) ∧ s.stack.frames = [] := by
  simp only [outcome, hc, Option.isSome_none, Bool.false_eq_true, if_false, Scan.isBalanced,
    List.isEmpty_iff, List.append_eq_nil_iff, List.reverse_eq_nil_iff] at h
  obtain ⟨⟨hissues, htext⟩, hframes⟩ := h
  refine ⟨hissues, ?_, ?_⟩
  · -- an open string or block comment would have been reported
    unfold openText at htext
    cases hm : s.stack.mode <;> simp_all
  · cases hf : s.stack.frames with
    | nil => rfl
    | cons f fs => simp [openFrames, hf, List.getLast?_cons] at hframes

theorem InWhole.toEnd (h : InWhole n s) : ToEnd (whole n) s := ⟨h.stop, h.closedAt?⟩

/-! ### Through comments -/

theorem InWhole.steps_of_moveAt (h : InWhole n s) {x : Char} {rest : Text} {m : Move}
    (ha : s.cursor.after = x :: rest) (hm : s.moveAt x rest = m) :
    Steps (whole n) s (m.apply s) :=
  hm ▸ h.steps_moveAt ha

/-- Inside of strings and comments the options make no difference. -/
theorem ToEnd.steps_of_moveAt (h : ToEnd o s) (hmode : s.stack.mode ≠ .normal) {x : Char}
    {rest : Text} {m : Move} (ha : s.cursor.after = x :: rest) (hm : s.moveAt x rest = m) :
    Steps o s (m.apply s) := by
  have hnext : Move.next o s.stack (expressionCanFollow s.cursor.before) x rest.head? rest =
      s.moveAt x rest := by
    unfold moveAt Move.next
    cases hs : s.stack.mode with
    | normal => exact absurd hs hmode
    | _ => rfl
  rw [Steps, h.next? ha (.inr hmode), hnext, hm]

theorem ToEnd.apply (h : ToEnd o s) (m : Move) : ToEnd o (m.apply s) :=
  ⟨by rw [Move.cursor_apply, Cursor.stop_skip, h.stop],
    by rw [Move.closedAt?_apply, h.closedAt?]⟩

theorem ToEnd.advance (h : ToEnd o s) (k : Nat) : ToEnd o (s.advance k) := h.apply (.pass k)

theorem InWhole.advance (h : InWhole n s) (k : Nat) : InWhole n (s.advance k) := h.apply (.pass k)

theorem after_advance (s : ScanState) (k : Nat) :
    (s.advance k).cursor.after = s.cursor.after.drop k := by
  rw [cursor_advance, Cursor.after_skip]

theorem advance_advance (s : ScanState) (j k : Nat) :
    (s.advance j).advance k = s.advance (j + k) := by
  simp only [ScanState.advance, Cursor.skip_skip]

/-- A walk goes on over the characters of a comment that ends with the line. -/
theorem ToEnd.walks_lineComment {body r : Text} (h : ToEnd o s)
    (hm : s.stack.mode = .lineComment) (hb : '\n' ∉ body) (ha : s.cursor.after = body ++ r) :
    Walks o s (s.advance body.length) := by
  induction body generalizing s with
  | nil => exact .refl
  | cons x body ih =>
    obtain ⟨hx, hb⟩ := not_or.mp (fun h => hb (List.mem_cons.mpr h))
    have hstep : Steps o s (s.advance 1) := by
      refine h.steps_of_moveAt (m := .pass 1) (by simp [hm]) ha ?_
      simp [moveAt, Move.next, hm, Move.inLineComment, Ne.symm hx]
    have hrest := ih (h.advance 1) hm hb (by rw [after_advance, ha]; rfl)
    rw [advance_advance, Nat.add_comm] at hrest
    exact .head hstep hrest

theorem InWhole.walks_lineComment {body r : Text} (h : InWhole n s)
    (hm : s.stack.mode = .lineComment) (hb : '\n' ∉ body) (ha : s.cursor.after = body ++ r) :
    Walks (whole n) s (s.advance body.length) :=
  h.toEnd.walks_lineComment hm hb ha

/-- A walk goes on over the characters of a comment up to its star and slash. -/
theorem ToEnd.walks_blockComment {body r : Text} (h : ToEnd o s)
    (hm : s.stack.mode = .blockComment) (hb : ¬ ['*', '/'] <:+: body ++ r.take 1)
    (ha : s.cursor.after = body ++ r) : Walks o s (s.advance body.length) := by
  induction body generalizing s with
  | nil => exact .refl
  | cons x body ih =>
    have hb' : ¬ ['*', '/'] <:+: body ++ r.take 1 := fun hi =>
      hb (hi.trans (List.suffix_cons x _).isInfix)
    -- the slash may stand behind the body, so one more character is looked at
    have hend : ¬ (x = '*' ∧ (body ++ r).head? = some '/') := by
      rintro ⟨rfl, hy⟩
      obtain ⟨z, hz⟩ := List.head?_eq_some_iff.mp hy
      refine hb (List.IsPrefix.isInfix ?_)
      cases body with
      | nil =>
        rw [List.nil_append] at hz
        rw [hz]
        exact List.prefix_rfl
      | cons y body =>
        obtain rfl : y = '/' := (List.cons.inj hz).1
        exact ⟨body ++ r.take 1, rfl⟩
    have hstep : Steps o s (s.advance 1) := by
      refine h.steps_of_moveAt (m := .pass 1) (by simp [hm]) ha ?_
      unfold moveAt Move.next
      rw [hm]
      exact if_neg hend
    have hrest := ih (h.advance 1) hm hb' (by rw [after_advance, ha]; rfl)
    rw [advance_advance, Nat.add_comm] at hrest
    exact .head hstep hrest

theorem InWhole.walks_blockComment {body r : Text} (h : InWhole n s)
    (hm : s.stack.mode = .blockComment) (hb : ¬ ['*', '/'] <:+: body ++ r.take 1)
    (ha : s.cursor.after = body ++ r) : Walks (whole n) s (s.advance body.length) :=
  h.toEnd.walks_blockComment hm hb ha

end ScanState

end SnippetGate
