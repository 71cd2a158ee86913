import SnippetGate.Proofs.Balance.Accepts
import SnippetGate.Proofs.Balance.Fate

/-!
# Where all is closed a scan begins anew

What a scan has found up to a place where nothing is open changes nothing about how it goes on. The
issues of the rest are added to those before.
-/

namespace SnippetGate

/-! ### Issues about frames that are closed -/

/-- An issue whose opener stands before an offset is not changed when a frame behind it is read
farther. -/
theorem Issue.withOpened_eq_self {i : Issue} {p : Nat}
    (h : i.kind = .mismatch → ∀ f ∈ i.opener?, f.pos < p) {q : Nat} (hq : p ≤ q) :
    i.withOpened q = i := by
  obtain ⟨cause, pos, stop?⟩ := i
  cases cause with
  | mismatch f closer deeper =>
    have hlt : f.pos < p := h rfl f rfl
    have hne : (f.pos == q) = false := by
      rw [beq_eq_false_iff_ne]
      omega
    simp only [withOpened, hne, Bool.and_false, Bool.false_eq_true, if_false]
  | _ => rfl

namespace ScanState

variable {o : ScanOptions} {n p i : Nat} {t : Text} {s s' u : ScanState} {old : List Issue}

/-- The closers that a walk has reported stand before its place. -/
theorem pos_le_of_mem_issues (hw : Walks o (Scan.start t i) s) :
    ∀ e ∈ s.issues, e.kind = .mismatch → e.pos ≤ s.cursor.pos := by
  refine hw.keeps (P := fun s => ∀ e ∈ s.issues, e.kind = .mismatch → e.pos ≤ s.cursor.pos)
    (fun {s u} hst hs => ?_) (List.forall_mem_nil _)
  have hle := hst.pos_le
  obtain ⟨x, rest, -, -, hissues⟩ := hst.exists_apply
  have hs' : ∀ e ∈ s.issues, e.kind = .mismatch → e.pos ≤ u.cursor.pos := fun e he hk =>
    (hs e he hk).trans hle
  rw [hissues]
  cases s.move o x rest with
  | closeBracket opener x =>
    rcases closesBracket s opener x with ⟨-, -, -, hi⟩ | ⟨-, -, stop, hi⟩ | ⟨-, stop, hi⟩
    · exact hi ▸ hs'
    · exact hi ▸ List.forall_mem_cons.mpr ⟨fun _ => hle, hs'⟩
    · exact hi ▸ List.forall_mem_cons.mpr ⟨by rintro ⟨⟩, hs'⟩
  | closeTag name n =>
    rcases closesTag s name n with
      ⟨stop, -, -, -, -, hi⟩ | ⟨stop, -, -, -, hi⟩ | ⟨stop, -, hi⟩
    · rw [hi]
      refine List.forall_mem_append.mpr ⟨fun e he _ => ?_, hs'⟩
      obtain ⟨f, -, rfl⟩ := List.mem_map.mp (List.mem_reverse.mp he)
      exact hle
    · exact hi ▸ List.forall_mem_cons.mpr ⟨fun _ => hle, hs'⟩
    · exact hi ▸ List.forall_mem_cons.mpr ⟨by rintro ⟨⟩, hs'⟩
  | beginChildren =>
    simp only [Move.apply, advance, beginChildren]
    split
    · exact hs'
    · intro e he hk
      obtain ⟨e', he', rfl⟩ := List.mem_map.mp he
      rw [Issue.kind_withOpened] at hk
      rw [Issue.pos_withOpened]
      exact hs' e' he' hk
  | cutShort top => exact List.forall_mem_cons.mpr ⟨by rintro ⟨⟩, hs'⟩
  | stray top x => exact List.forall_mem_cons.mpr ⟨fun _ => hle, hs'⟩
  | _ => exact hs'

/-- What a walk has reported is not changed by the frames that it opens later. -/
theorem withOpened_of_mem_issues (hw : Walks o (Scan.start t i) s) :
    ∀ e ∈ s.issues, ∀ q, s.cursor.pos ≤ q → e.withOpened q = e := by
  intro e he q hq
  refine Issue.withOpened_eq_self (p := s.cursor.pos) (fun hk f hf => ?_) hq
  obtain ⟨-, -, -, -, -, hopener⟩ := hw.orderly.shows e he (.inl hk)
  exact Nat.lt_of_lt_of_le (hopener f hf) (pos_le_of_mem_issues hw e he hk)

/-! ### The rest of the walk -/

/-- Two places of walks that went on alike from offset `p`. The second walk had found `old` before,
and the first one nothing. -/
structure Anew (p : Nat) (old : List Issue) (s u : ScanState) : Prop where
  cursor : u.cursor = s.cursor
  frames : u.stack.frames = s.stack.frames
  mode : u.stack.mode = s.stack.mode
  quote : s.stack.mode ≠ .normal → u.stack.quote = s.stack.quote
  issues : u.issues = s.issues ++ old
  inner : ∀ f ∈ s.stack.frames, p ≤ f.pos

theorem Anew.moveAt_eq (h : Anew p old s u) (x : Char) (rest : Text) :
    u.moveAt x rest = s.moveAt x rest := by
  unfold moveAt Move.next
  rw [h.mode, h.frames, h.cursor]
  cases hm : s.stack.mode with
  | string => rw [h.quote (by rw [hm]; nofun)]
  | _ => rfl

namespace Anew

theorem advance (h : Anew p old s u) (k : Nat) : Anew p old (s.advance k) (u.advance k) :=
  { h with cursor := congrArg (Cursor.skip k) h.cursor }

theorem push (h : Anew p old s u) {f : Frame} (hf : p ≤ f.pos) : Anew p old (s.push f) (u.push f) :=
  { h with
    frames := congrArg (f :: ·) h.frames
    inner := List.forall_mem_cons.mpr ⟨hf, h.inner⟩ }

theorem pop (h : Anew p old s u) : Anew p old s.pop u.pop :=
  { h with
    frames := congrArg List.tail h.frames
    inner := fun f hf => h.inner f (List.mem_of_mem_tail hf) }

theorem report (h : Anew p old s u) (e : Issue) : Anew p old (s.report e) (u.report e) :=
  { h with issues := congrArg (e :: ·) h.issues }

theorem enter (h : Anew p old s u) (mode : Mode) (quote : Text) :
    Anew p old (s.enter mode quote) (u.enter mode quote) :=
  { h with
    mode := rfl
    quote := fun _ => rfl }

theorem leave (h : Anew p old s u) : Anew p old s.leave u.leave :=
  { h with
    mode := rfl
    quote := fun _ => rfl }

theorem closeBracket (h : Anew p old s u) (opener x : Char) :
    Anew p old (s.closeBracket opener x) (u.closeBracket opener x) := by
  unfold ScanState.closeBracket
  rw [h.frames, h.cursor]
  split
  · exact h.report _
  · split
    · exact h.pop
    · exact (h.report _).pop

theorem closeTag (h : Anew p old s u) (name : Text) (stop : Nat) :
    Anew p old (s.closeTag name stop) (u.closeTag name stop) := by
  unfold ScanState.closeTag
  rw [h.frames, h.cursor]
  split
  · next inner outer hsplit =>
    obtain ⟨top, he, -⟩ := splitAtTag?_spec hsplit
    exact
      { h with
        cursor := rfl
        frames := rfl
        issues := by rw [h.issues, List.append_assoc]
        inner := fun f hf => h.inner f (by rw [he]; simp [hf]) }
  · split
    · exact h.report _
    · split
      · exact (h.report _).pop
      · exact h.report _

theorem beginChildren (h : Anew p old s u)
    (hold : ∀ e ∈ old, ∀ q, p ≤ q → e.withOpened q = e) :
    Anew p old s.beginChildren u.beginChildren := by
  unfold ScanState.beginChildren
  rw [h.frames]
  split
  · exact h
  · next top fs hf =>
    have hinner := h.inner
    rw [hf] at hinner
    -- what was found before tells of no frame that was opened since
    have hkept : old.map (Issue.withOpened top.pos) = old := by
      conv_rhs => rw [← List.map_id old]
      exact List.map_congr_left fun e he => hold e he _ (hinner top List.mem_cons_self)
    exact
      { h with
        frames := rfl
        issues := by rw [h.issues, List.map_append, hkept]
        inner := List.forall_mem_cons.mpr (List.forall_mem_cons.mp hinner) }

/-- The same move is made with the same effect. -/
theorem apply (h : Anew p old s u) (hold : ∀ e ∈ old, ∀ q, p ≤ q → e.withOpened q = e)
    (hp : p ≤ s.cursor.pos) (m : Move) : Anew p old (m.apply s) (m.apply u) := by
  cases m with
  | pass k => exact h.advance k
  | enter mode quote k => exact (h.enter mode quote).advance k
  | leave k => exact h.leave.advance k
  | openBracket x =>
    simp only [Move.apply, h.cursor]
    exact (h.push hp).advance 1
  | openTag name phase k =>
    simp only [Move.apply, h.cursor]
    exact (h.push hp).advance k
  | closeBracket opener x => exact (h.closeBracket opener x).advance 1
  | closeTag name k =>
    simp only [Move.apply, h.cursor]
    exact (h.closeTag name _).advance k
  | endTag k => exact h.pop.advance k
  | beginChildren => exact (h.beginChildren hold).advance 1
  | cutShort top => exact (h.report _).pop
  | stray top x =>
    simp only [Move.apply, h.cursor]
    exact (h.report _).advance 1

end Anew

/-- From a place where nothing is open, a walk goes on as if nothing had been found before. -/
theorem Anew.exists_walks (h : Anew p old s u) (hs : InWhole n s) (hu : InWhole n u)
    (hp : p ≤ s.cursor.pos) (hold : ∀ e ∈ old, ∀ q, p ≤ q → e.withOpened q = e)
    (hw : Walks (whole n) s s') : ∃ u', Walks (whole n) u u' ∧ Anew p old s' u' := by
  obtain ⟨u', hw', -, -, -, h'⟩ := hw.simulate
    (R := fun s u => InWhole n s ∧ InWhole n u ∧ p ≤ s.cursor.pos ∧ Anew p old s u)
    (fun {s s' u} hR hst => by
      obtain ⟨hs, hu, hp, h⟩ := hR
      have hle := hst.pos_le
      obtain ⟨x, rest, ha, rfl⟩ := hs.steps hst
      have hst' := hu.steps_moveAt (show u.cursor.after = x :: rest by rw [h.cursor, ha])
      rw [h.moveAt_eq] at hst'
      exact ⟨_, hst', hs.apply _, hu.apply _, hp.trans hle, h.apply hold hp _⟩) ⟨hs, hu, hp, h⟩
  exact ⟨u', hw', h'⟩

/-- Script that stands behind a place where all is closed adds nothing to what was found. -/
theorem ofText_eq_of_closed {d : Cursor} (hw : Walks (whole t.length) (Scan.start t 0) s)
    (hframes : s.stack.frames = []) (hmode : s.stack.mode = .normal)
    (hr : Grammar.Reads .script s.cursor d) (hd : d.after = []) :
    Scan.ofText t = ⟨s.issues.reverse, [], none⟩ := by
  have hin := (inWhole_start t).walks hw
  obtain ⟨e, hwe, he⟩ := settles_of_reads hr [] rfl hin.stop
  -- the grammar speaks of walks that have found nothing, so one of these is compared
  have hanew : Anew s.cursor.pos s.issues (clear s.cursor []) s :=
    ⟨rfl, hframes, hmode, fun h => absurd rfl h, rfl, List.forall_mem_nil _⟩
  have hclear : InWhole t.length (clear s.cursor []) := ⟨hin.stop, rfl⟩
  obtain ⟨u, hwu, hu⟩ := hanew.exists_walks hclear hin (Nat.le_refl _)
    (withOpened_of_mem_issues hw) hwe
  have hinu := hin.walks hwu
  have hafter : u.cursor.after = [] := by
    rw [hu.cursor]
    cases he <;> exact hd
  have hend : run (whole t.length) (Scan.start t 0) = u :=
    (inWhole_start t).run_eq_of_after (hw.trans hwu) hafter
  have hissues : u.issues = s.issues := by
    rw [hu.issues]
    cases he <;> rfl
  have hnil : u.stack.frames = [] := by
    rw [hu.frames]
    cases he <;> rfl
  have htext : u.openText t = [] := by
    unfold openText
    rw [hu.mode]
    cases he <;> rfl
  rw [Scan.ofText, Scan.ofTextFrom, Scan.ofTextWith, hend, outcome, hinu.closedAt?, openFrames,
    htext, hnil, hissues]
  simp

end ScanState

end SnippetGate
